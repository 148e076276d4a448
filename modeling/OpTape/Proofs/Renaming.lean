import OpTape.Proofs.Running
import OpTape.Proofs.Traversal
/-
  Renaming the operands of a usage. `Renames` says what a successful renaming is, one rule for
  each kind of usage. A renamed usage is of the same kind and reads the names of what was read,
  so it has the same effect wherever the names stand for the same values and vectors
  (`Renames.effect_eq`).
-/
namespace OpTape.Usage

variable {V : Type}

/-- `u'` is `u` with each value and each vector under its new name. -/
inductive Renames (value vector : Nat → Option Nat) : Usage V → Usage V → Prop
  | constant (v : V) : Renames value vector (.constant v) (.constant v)
  | unary {op : UnaryOp} {x x' : Nat} (hx : value x = some x') :
      Renames value vector (.unary op x) (.unary op x')
  | binary {op : BinaryOp} {x y x' y' : Nat} (hx : value x = some x') (hy : value y = some y') :
      Renames value vector (.binary op x y) (.binary op x' y')
  | discrete {id x x' : Nat} (hx : value x = some x') :
      Renames value vector (.discrete id x) (.discrete id x')
  | compare {cmp : Comparison} {x y x' y' : Nat} (hx : value x = some x')
      (hy : value y = some y') : Renames value vector (.compare cmp x y) (.compare cmp x' y')
  | select {cmp : Comparison} {x y a b x' y' a' b' : Nat} (hx : value x = some x')
      (hy : value y = some y') (ha : value a = some a') (hb : value b = some b') :
      Renames value vector (.select cmp x y a b) (.select cmp x' y' a' b')
  | sum {add sub add' sub' : List Nat} (hadd : add.mapM value = some add')
      (hsub : sub.mapM value = some sub') :
      Renames value vector (.sum add sub) (.sum add' sub')
  | vector {initial initial' : List Nat} (h : initial.mapM value = some initial') :
      Renames value vector (.vector initial) (.vector initial')
  | load {w w' x x' : Nat} (hw : vector w = some w') (hx : value x = some x') :
      Renames value vector (.load w x) (.load w' x')
  | store {w w' x y x' y' : Nat} (hw : vector w = some w') (hx : value x = some x')
      (hy : value y = some y') : Renames value vector (.store w x y) (.store w' x' y')
  | print {before after : String} {x y x' y' : Nat} (hx : value x = some x')
      (hy : value y = some y') :
      Renames value vector (.print before after x y) (.print before after x' y')
  | foreign {family : Family} {id callId n : Nat} {xs xs' : List Nat}
      (h : xs.mapM value = some xs') :
      Renames value vector (.foreign family id callId n xs) (.foreign family id callId n xs')

theorem rename?_eq_some_iff {value vector : Nat → Option Nat} {u u' : Usage V} :
    u.rename? value vector = some u' ↔ Renames value vector u u' := by
  constructor
  · intro h
    cases u <;>
      simp only [rename?, Option.bind_eq_bind, Option.bind_eq_some_iff, Option.pure_def,
        Option.some.injEq] at h
    case constant => subst h; exact .constant _
    case unary => obtain ⟨_, hx, rfl⟩ := h; exact .unary hx
    case binary => obtain ⟨_, hx, _, hy, rfl⟩ := h; exact .binary hx hy
    case discrete => obtain ⟨_, hx, rfl⟩ := h; exact .discrete hx
    case compare => obtain ⟨_, hx, _, hy, rfl⟩ := h; exact .compare hx hy
    case select => obtain ⟨_, hx, _, hy, _, ha, _, hb, rfl⟩ := h; exact .select hx hy ha hb
    case sum => obtain ⟨_, hadd, _, hsub, rfl⟩ := h; exact .sum hadd hsub
    case vector => obtain ⟨_, hi, rfl⟩ := h; exact .vector hi
    case load => obtain ⟨_, hw, _, hx, rfl⟩ := h; exact .load hw hx
    case store => obtain ⟨_, hw, _, hx, _, hy, rfl⟩ := h; exact .store hw hx hy
    case print => obtain ⟨_, hx, _, hy, rfl⟩ := h; exact .print hx hy
    case foreign => obtain ⟨_, hi, rfl⟩ := h; exact .foreign hi
  · intro h
    cases h <;> simp_all [rename?]

namespace Renames

variable {value vector : Nat → Option Nat} {u u' : Usage V}

theorem kind_eq (h : Renames value vector u u') : u'.kind = u.kind := by
  cases h <;> rfl

theorem resultCount_eq (h : Renames value vector u u') : u'.resultCount = u.resultCount := by
  cases h <;> rfl

theorem startsVector_eq (h : Renames value vector u u') : u'.startsVector = u.startsVector := by
  cases h <;> rfl

theorem spoil_eq [Scalar V] (h : Renames value vector u u') (s : State V) :
    s.spoil u' = s.spoil u := by
  cases h <;> rfl

theorem exists_of_mem_vector (h : Renames value vector u u') {w' : Nat} (hw : w' ∈ u'.vector?) :
    ∃ w ∈ u.vector?, vector w = some w' := by
  cases h <;> simp_all [vector?]

theorem map_args (h : Renames value vector u u') : u.args.map value = u'.args.map some := by
  cases h with
  | sum hadd hsub =>
    rw [mapM_eq_some_iff] at hadd hsub
    show List.map value (_ ++ _) = List.map some (_ ++ _)
    rw [List.map_append, List.map_append, hadd, hsub]
  | foreign h => exact mapM_eq_some_iff.mp h
  | _ => simp_all [args]

theorem map_initials (h : Renames value vector u u') :
    u.initials.map value = u'.initials.map some := by
  cases h with
  | vector h => exact mapM_eq_some_iff.mp h
  | _ => rfl

/-- A renamed usage reads the names of what was read, in order. -/
theorem map_reads (h : Renames value vector u u') : u.reads.map value = u'.reads.map some := by
  rw [reads, reads, List.map_append, List.map_append, h.map_args, h.map_initials]

/-- What a renamed usage reads are names of what was read. -/
theorem exists_of_mem_reads (h : Renames value vector u u') {j : Nat} (hj : j ∈ u'.reads) :
    ∃ i ∈ u.reads, value i = some j := by
  have hmem : some j ∈ u.reads.map value := h.map_reads ▸ List.mem_map_of_mem hj
  exact List.mem_map.mp hmem

/-- Other tables do as well if they say the same of what is read. -/
theorem transfer {value' vector' : Nat → Option Nat} (h : Renames value vector u u')
    (hvalue : ∀ i ∈ u.reads, ∀ j, value i = some j → value' i = some j)
    (hvector : ∀ w ∈ u.vector?, ∀ w', vector w = some w' → vector' w = some w') :
    Renames value' vector' u u' := by
  have hlist {xs xs' : List Nat} (hxs : ∀ i ∈ xs, i ∈ u.reads) (h : xs.mapM value = some xs') :
      xs.mapM value' = some xs' :=
    mapM_mono_of_some h fun i hi => hvalue i (hxs i hi)
  simp only [reads, args, initials] at hvalue hlist
  cases h with
  | constant v => exact .constant v
  | unary hx => exact .unary (hvalue _ (by simp) _ hx)
  | binary hx hy => exact .binary (hvalue _ (by simp) _ hx) (hvalue _ (by simp) _ hy)
  | discrete hx => exact .discrete (hvalue _ (by simp) _ hx)
  | compare hx hy => exact .compare (hvalue _ (by simp) _ hx) (hvalue _ (by simp) _ hy)
  | select hx hy ha hb =>
    exact .select (hvalue _ (by simp) _ hx) (hvalue _ (by simp) _ hy) (hvalue _ (by simp) _ ha)
      (hvalue _ (by simp) _ hb)
  | sum hadd hsub => exact .sum (hlist (by simp +contextual) hadd) (hlist (by simp +contextual) hsub)
  | vector h => exact .vector (hlist (by simp) h)
  | load hw hx => exact .load (hvector _ rfl _ hw) (hvalue _ (by simp) _ hx)
  | store hw hx hy =>
    exact .store (hvector _ rfl _ hw) (hvalue _ (by simp) _ hx) (hvalue _ (by simp) _ hy)
  | print hx hy => exact .print (hvalue _ (by simp) _ hx) (hvalue _ (by simp) _ hy)
  | foreign h => exact .foreign (hlist (by simp) h)

/-- More names do not change the names that were found. -/
theorem mono {value' : Nat → Option Nat} (h : Renames value vector u u')
    (hvalue : ∀ {i j}, value i = some j → value' i = some j) : Renames value' vector u u' :=
  h.transfer (fun _ _ _ => hvalue) fun _ _ _ hw => hw

end Renames

theorem Renames.refl (u : Usage V) : Renames some some u u := by
  have hlist (xs : List Nat) : xs.mapM some = some xs := by rw [mapM_eq_some_iff]
  cases u with
  | sum add sub => exact .sum (hlist add) (hlist sub)
  | vector initial => exact .vector (hlist initial)
  | foreign family id callId n inputs => exact .foreign (hlist inputs)
  | constant v => exact .constant v
  | unary => exact .unary rfl
  | binary => exact .binary rfl rfl
  | discrete => exact .discrete rfl
  | compare => exact .compare rfl rfl
  | select => exact .select rfl rfl rfl rfl
  | load => exact .load rfl rfl
  | store => exact .store rfl rfl rfl
  | print => exact .print rfl rfl

/-- A usage can be renamed when all that it reads and works on has a name. -/
theorem exists_renames {value vector : Nat → Option Nat} {u : Usage V}
    (hvalue : ∀ i ∈ u.reads, ∃ j, value i = some j)
    (hvector : ∀ w ∈ u.vector?, ∃ w', vector w = some w') : ∃ u', Renames value vector u u' := by
  have list (xs : List Nat) (h : ∀ i ∈ xs, ∃ j, value i = some j) := exists_mapM_some h
  cases u with
  | constant v => exact ⟨_, .constant v⟩
  | unary op x =>
    obtain ⟨_, hx⟩ := hvalue x (by simp [reads, args])
    exact ⟨_, .unary hx⟩
  | binary op x y =>
    obtain ⟨_, hx⟩ := hvalue x (by simp [reads, args])
    obtain ⟨_, hy⟩ := hvalue y (by simp [reads, args])
    exact ⟨_, .binary hx hy⟩
  | discrete id x =>
    obtain ⟨_, hx⟩ := hvalue x (by simp [reads, args])
    exact ⟨_, .discrete hx⟩
  | compare cmp x y =>
    obtain ⟨_, hx⟩ := hvalue x (by simp [reads, args])
    obtain ⟨_, hy⟩ := hvalue y (by simp [reads, args])
    exact ⟨_, .compare hx hy⟩
  | select cmp x y a b =>
    obtain ⟨_, hx⟩ := hvalue x (by simp [reads, args])
    obtain ⟨_, hy⟩ := hvalue y (by simp [reads, args])
    obtain ⟨_, ha⟩ := hvalue a (by simp [reads, args])
    obtain ⟨_, hb⟩ := hvalue b (by simp [reads, args])
    exact ⟨_, .select hx hy ha hb⟩
  | sum add sub =>
    obtain ⟨_, hadd⟩ := list add fun i hi => hvalue i (by simp [reads, args, hi])
    obtain ⟨_, hsub⟩ := list sub fun i hi => hvalue i (by simp [reads, args, hi])
    exact ⟨_, .sum hadd hsub⟩
  | vector initial =>
    obtain ⟨_, hi⟩ := list initial fun i hi => hvalue i (by simp [reads, initials, hi])
    exact ⟨_, .vector hi⟩
  | load w x =>
    obtain ⟨_, hw⟩ := hvector w rfl
    obtain ⟨_, hx⟩ := hvalue x (by simp [reads, args])
    exact ⟨_, .load hw hx⟩
  | store w x y =>
    obtain ⟨_, hw⟩ := hvector w rfl
    obtain ⟨_, hx⟩ := hvalue x (by simp [reads, args])
    obtain ⟨_, hy⟩ := hvalue y (by simp [reads, args])
    exact ⟨_, .store hw hx hy⟩
  | print before after x y =>
    obtain ⟨_, hx⟩ := hvalue x (by simp [reads, args])
    obtain ⟨_, hy⟩ := hvalue y (by simp [reads, args])
    exact ⟨_, .print hx hy⟩
  | foreign family id callId n xs =>
    obtain ⟨_, hi⟩ := list xs fun i hi => hvalue i (by simp [reads, args, hi])
    exact ⟨_, .foreign hi⟩

section

variable [Scalar V] {value vector : Nat → Option Nat} {u u' : Usage V}

theorem Renames.compute_eq (h : Renames value vector u u') (r : Registry V)
    {read read' : Nat → Except (Fault V) V}
    (hread : ∀ i ∈ u.reads, ∀ j, value i = some j → read' j = read i) :
    u'.compute r read' = u.compute r read := by
  cases h with
  | sum hadd hsub =>
    simp only [compute, total]
    have ha := foldlM_congr_of_mapM hadd
      (fun i hi j hij => hread i (by simp [reads, args, hi]) j hij) (Scalar.binary .add)
    have hs := foldlM_congr_of_mapM hsub
      (fun i hi j hij => hread i (by simp [reads, args, hi]) j hij) (Scalar.binary .sub)
    simp only [ha, hs]
  | foreign hi =>
    simp only [compute]
    rw [mapM_congr_of_mapM hi fun i hi j hij => hread i (by simp [reads, args, hi]) j hij]
  | select hx hy ha hb =>
    simp only [reads, args, initials, List.append_nil] at hread
    simp only [compute, hread _ (by simp) _ hx, hread _ (by simp) _ hy]
    congr 1; funext left
    congr 1; funext right
    split
    · rw [hread _ (by simp) _ ha]
    · rw [hread _ (by simp) _ hb]
  | _ => simp_all [reads, args, initials, compute]

/-- What a usage computes depends on what it reads only. -/
theorem compute_congr (u : Usage V) (r : Registry V) {read read' : Nat → Except (Fault V) V}
    (h : ∀ i ∈ u.reads, read' i = read i) : u.compute r read' = u.compute r read := by
  refine (Renames.refl u).compute_eq r fun i hi j hij => ?_
  obtain rfl := Option.some.inj hij
  exact h i hi

/-- A renamed usage has the same effect where the names stand for the same. The vectors keep
their numbers, since these show in the effect of a store and in the fault of a wrong index. -/
theorem Renames.effect_eq (h : Renames value vector u u') (r : Registry V)
    {values values' : Array V} {vectors vectors' : Array (Array V)}
    (hvalue : ∀ i ∈ u.reads, ∀ j, value i = some j → values'[j]? = values[i]?)
    (hvector : ∀ w ∈ u.vector?, ∀ w', vector w = some w' → w' = w ∧ vectors'[w]? = vectors[w]?) :
    u'.effect r values' vectors' = u.effect r values vectors := by
  have hread : ∀ i ∈ u.reads, ∀ j, value i = some j →
      entry (V := V) values' j = entry values i := by
    intro i hi j hij
    simp only [entry, hvalue i hi j hij]
  have hcompute := h.compute_eq r hread
  cases h with
  | compare hx hy => simp_all [effect, reads, args, initials]
  | print hx hy => simp_all [effect, reads, args, initials]
  | vector hi =>
    simp only [effect]
    rw [mapM_congr_of_mapM hi fun i hi j hij => hread i (by simp [reads, initials, hi]) j hij]
  | load hw hx =>
    obtain ⟨rfl, hv⟩ := hvector _ rfl _ hw
    simp_all [effect, reads, args, initials, entry]
  | store hw hx hy =>
    obtain ⟨rfl, hv⟩ := hvector _ rfl _ hw
    simp_all [effect, reads, args, initials, entry]
  | _ => simp only [effect, hcompute]

end

end OpTape.Usage

namespace OpTape

variable {V : Type}

/-- The same effect, on a vector under its new number. -/
inductive Effect.Renames (vector : Nat → Option Nat) : Effect V → Effect V → Prop
  | results (values : List V) : Renames vector (.results values) (.results values)
  | compared (held : Bool) : Renames vector (.compared held) (.compared held)
  | started (cells : Array V) : Renames vector (.started cells) (.started cells)
  | stored {w w' : Nat} (hw : vector w = some w') (cells : Array V) :
      Renames vector (.stored w cells) (.stored w' cells)
  | printed (text : String) : Renames vector (.printed text) (.printed text)

theorem Effect.Renames.refl {vector : Nat → Option Nat} {e : Effect V}
    (h : ∀ w cells, e ≠ .stored w cells) : Effect.Renames vector e e := by
  cases e with
  | stored w cells => exact absurd rfl (h w cells)
  | results | compared | started | printed => constructor

variable [Scalar V]

/-- The number of a vector shows in a fault only. -/
theorem locate_of_ok {w : Nat} (w' : Nat) {index : V} {size : Nat} {k : Option (Fin size)}
    (h : locate w index size = .ok k) : locate w' index size = .ok k := by
  unfold locate at h ⊢
  split at h
  · exact h
  · cases h
  · split at h
    · rename_i hn
      rw [dif_pos hn]
      exact h
    · cases h

/-- A usage that succeeds has, renamed, the same effect where the names stand for the same. -/
theorem Usage.Renames.exists_effect {value vector : Nat → Option Nat} {u u' : Usage V}
    (h : Usage.Renames value vector u u') {r : Registry V} {values values' : Array V}
    {vectors vectors' : Array (Array V)} {e : Effect V}
    (hvalue : ∀ i ∈ u.reads, ∀ j, value i = some j → values'[j]? = values[i]?)
    (hvector : ∀ w ∈ u.vector?, ∀ w', vector w = some w' → vectors'[w']? = vectors[w]?)
    (he : u.effect r values vectors = .ok e) :
    ∃ e', u'.effect r values' vectors' = .ok e' ∧ Effect.Renames vector e e' := by
  have hread : ∀ i ∈ u.reads, ∀ j, value i = some j →
      entry (V := V) values' j = entry values i := by
    intro i hi j hij
    simp only [entry, hvalue i hi j hij]
  by_cases hnone : u.vector? = none
  · refine ⟨e, ?_, .refl fun w cells hstored => ?_⟩
    · rw [h.effect_eq r hvalue (by simp [hnone]), he]
    · have hof := isOf_of_effect he
      rw [hstored] at hof
      exact absurd (hnone.symm.trans hof.2) (by simp)
  · cases h with
    | @load w w' x x' hw hx =>
      have hcells : entry (V := V) vectors' w' = entry vectors w := by
        simp only [entry, hvector w rfl w' hw]
      simp only [effect, bind_eq_ok_iff] at he ⊢
      obtain ⟨cells, hc, i, hi, k, hk, he⟩ := he
      refine ⟨e, ⟨cells, hcells.trans hc, i, ?_, k, locate_of_ok w' hk, he⟩, .refl ?_⟩
      · rw [hread x (by simp [reads, args]) x' hx, hi]
      · rintro _ _ rfl
        cases k <;> simp [pure, Except.pure] at he
    | @store w w' x y x' y' hw hx hy =>
      have hcells : entry (V := V) vectors' w' = entry vectors w := by
        simp only [entry, hvector w rfl w' hw]
      simp only [effect, bind_eq_ok_iff] at he ⊢
      obtain ⟨cells, hc, v, hv, i, hi, k, hk, he⟩ := he
      have hx' := (hread x (by simp [reads, args]) x' hx).trans hi
      have hy' := (hread y (by simp [reads, args]) y' hy).trans hv
      cases k with
      | none =>
        obtain rfl := Except.ok.inj he
        exact ⟨_, ⟨cells, hcells.trans hc, v, hy', i, hx', none, locate_of_ok w' hk, rfl⟩,
          .stored hw _⟩
      | some k =>
        obtain rfl := Except.ok.inj he
        exact ⟨_, ⟨cells, hcells.trans hc, v, hy', i, hx', some k, locate_of_ok w' hk, rfl⟩,
          .stored hw _⟩
    | _ => simp [vector?] at hnone

end OpTape
