import OpTape.Proofs.Reachable
import OpTape.Proofs.Sweeping
/-
  What dropping dead code leaves. `Usage.Selects` follows the usages of a tape and those of the new
  one side by side: a dropped usage leaves nothing, a kept one stands at the next place with its
  operands renamed, and the two tables say where each value and each vector went. So the new tape is
  the needed usages in their order (`Selects.forall₂`), and no two values share a new name
  (`Selection.value_injective`).
-/
namespace OpTape

variable {V : Type}

/-! ## Numbering what is left -/

/-- Blocks of entries follow each other from `first` on, each with a flag that says whether it
stays. The table gives the entries of the blocks that stay the numbers from `first'` on. -/
inductive Renumbers (table : Nat → Option Nat) : Nat → Nat → List (Nat × Bool) → Prop
  | nil (first first' : Nat) : Renumbers table first first' []
  | drop {first first' n : Nat} {blocks : List (Nat × Bool)}
      (h : ∀ j < n, table (first + j) = none) (hrest : Renumbers table (first + n) first' blocks) :
      Renumbers table first first' ((n, false) :: blocks)
  | keep {first first' n : Nat} {blocks : List (Nat × Bool)}
      (h : ∀ j < n, table (first + j) = some (first' + j))
      (hrest : Renumbers table (first + n) (first' + n) blocks) :
      Renumbers table first first' ((n, true) :: blocks)

namespace Renumbers

variable {table : Nat → Option Nat} {first first' i i' j j' : Nat} {blocks : List (Nat × Bool)}

theorem le_of_table (h : Renumbers table first first' blocks) (hge : first ≤ i)
    (hlt : i < first + (blocks.map Prod.fst).sum) (hi : table i = some j) : first' ≤ j := by
  induction h with
  | nil =>
    rw [List.map_nil, List.sum_nil] at hlt
    omega
  | @drop first first' n blocks h _ ih =>
    rw [List.map_cons, List.sum_cons] at hlt
    by_cases hhere : i < first + n
    · obtain ⟨k, rfl⟩ := Nat.exists_eq_add_of_le hge
      rw [h k (by omega)] at hi
      cases hi
    · exact ih (by omega) (by omega)
  | @keep first first' n blocks h _ ih =>
    rw [List.map_cons, List.sum_cons] at hlt
    by_cases hhere : i < first + n
    · obtain ⟨k, rfl⟩ := Nat.exists_eq_add_of_le hge
      rw [h k (by omega)] at hi
      obtain rfl := Option.some.inj hi
      exact Nat.le_add_right _ _
    · exact Nat.le_trans (Nat.le_add_right _ _) (ih (by omega) (by omega))

/-- The new numbers are in the order of the old ones. -/
theorem lt_of_lt (h : Renumbers table first first' blocks) (hge : first ≤ i) (hii' : i < i')
    (hlt : i' < first + (blocks.map Prod.fst).sum) (hi : table i = some j)
    (hi' : table i' = some j') : j < j' := by
  induction h with
  | nil =>
    rw [List.map_nil, List.sum_nil] at hlt
    omega
  | @drop first first' n blocks h _ ih =>
    rw [List.map_cons, List.sum_cons] at hlt
    by_cases hhere : i < first + n
    · obtain ⟨k, rfl⟩ := Nat.exists_eq_add_of_le hge
      rw [h k (by omega)] at hi
      cases hi
    · exact ih (by omega) (by omega)
  | @keep first first' n blocks h hrest ih =>
    rw [List.map_cons, List.sum_cons] at hlt
    by_cases hhere : i < first + n
    · obtain ⟨k, rfl⟩ := Nat.exists_eq_add_of_le hge
      rw [h k (by omega)] at hi
      obtain rfl := Option.some.inj hi
      by_cases hnext : i' < first + n
      · obtain ⟨k', rfl⟩ := Nat.exists_eq_add_of_le (Nat.le_trans hge (Nat.le_of_lt hii'))
        rw [h k' (by omega)] at hi'
        obtain rfl := Option.some.inj hi'
        omega
      · have hle := hrest.le_of_table (Nat.le_of_not_lt hnext) (by omega) hi'
        omega
    · exact ih (by omega) (by omega)

end Renumbers

/-- No two entries below `n` have the same number. -/
def InjectiveBelow (table : Nat → Option Nat) (n : Nat) : Prop :=
  ∀ ⦃i i' j : Nat⦄, i < n → i' < n → table i = some j → table i' = some j → i = i'

theorem Renumbers.injectiveBelow {table : Nat → Option Nat} {blocks : List (Nat × Bool)} {n : Nat}
    (h : Renumbers table 0 0 blocks) (hn : (blocks.map Prod.fst).sum = n) :
    InjectiveBelow table n := by
  intro i i' j hi hi' hij hij'
  have hbound (k : Nat) (hk : k < n) : k < 0 + (blocks.map Prod.fst).sum := by omega
  rcases Nat.lt_trichotomy i i' with hlt | rfl | hlt
  · exact absurd (h.lt_of_lt (Nat.zero_le i) hlt (hbound i' hi') hij hij') (Nat.lt_irrefl j)
  · rfl
  · exact absurd (h.lt_of_lt (Nat.zero_le i') hlt (hbound i hi) hij' hij) (Nat.lt_irrefl j)

namespace InjectiveBelow

variable {table : Nat → Option Nat} {n i j : Nat} {xs xs' : List Nat}

/-- An index is on a list where its number is on the renumbered list. -/
theorem contains_eq (h : InjectiveBelow table n) (hxs : xs.map table = xs'.map some)
    (hlt : ∀ i ∈ xs, i < n) (hi : i < n) (hij : table i = some j) :
    xs'.contains j = xs.contains i := by
  rw [Bool.eq_iff_iff, List.contains_iff_mem, List.contains_iff_mem]
  constructor
  · intro hj
    have hmem : some j ∈ xs.map table := hxs ▸ List.mem_map_of_mem hj
    obtain ⟨i', hi', heq⟩ := List.mem_map.mp hmem
    exact h (hlt i' hi') hi heq hij ▸ hi'
  · intro hmem
    have hmem' : table i ∈ xs'.map some := hxs ▸ List.mem_map_of_mem hmem
    rw [hij] at hmem'
    exact (List.mem_map_of_injective fun _ _ => Option.some.inj).mp hmem'

/-- Lists of entries with the same numbers are the same. -/
theorem map_inj (h : InjectiveBelow table n) {xs ys : List Nat} (hxs : ∀ i ∈ xs, i < n)
    (hys : ∀ i ∈ ys, i < n) {zs : List Nat} (hx : xs.mapM table = some zs)
    (hy : ys.mapM table = some zs) : xs = ys := by
  rw [mapM_eq_some_iff] at hx hy
  induction xs generalizing ys zs with
  | nil =>
    cases zs with
    | nil => exact (List.map_eq_nil_iff.mp hy).symm
    | cons => cases hx
  | cons x xs ih =>
    cases zs with
    | nil => cases hx
    | cons z zs =>
      cases ys with
      | nil => cases hy
      | cons y ys =>
        obtain ⟨hxz, hx⟩ := List.cons.inj hx
        obtain ⟨hyz, hy⟩ := List.cons.inj hy
        rw [List.forall_mem_cons] at hxs hys
        rw [h hxs.1 hys.1 hxz hyz, ih hxs.2 hys.2 hx hy]

end InjectiveBelow

/-! ## Usages that are left -/

namespace Usage

/-- What an action makes of a usage that stays: its operands are renamed, and inputs of a registered
function that are not flagged are bound to zero instead. -/
inductive Kept (zeroIndex : Nat) (value vector : Nat → Option Nat) :
    Usage V → Action V → Usage V → Prop
  | copy {u u' : Usage V} (h : Renames value vector u u') : Kept zeroIndex value vector u .copy u'
  | rebind {family : Family} {id callId n : Nat} {inputs inputs' : List Nat} {flags : List Bool}
      (hlength : flags.length = inputs.length)
      (h : (flags.zip inputs).mapM (fun (flag, i) => if flag then value i else some zeroIndex)
        = some inputs') :
      Kept zeroIndex value vector (.foreign family id callId n inputs) (.rebind flags)
        (.foreign family id callId n inputs')

/-- The usages from place `p` on, acted on one by one, leave the usages from place `p'` on. -/
inductive Selects (zeroIndex : Nat) (value vector : Nat → Option Nat) :
    Place → Place → List (Usage V) → List (Action V) → List (Usage V) → Prop
  | nil (p p' : Place) : Selects zeroIndex value vector p p' [] [] []
  | drop {p p' : Place} {u : Usage V} {us us' : List (Usage V)} {actions : List (Action V)}
      (hvalue : ∀ j < u.resultCount, value (p.first + j) = none)
      (hvector : u.startsVector = true → vector p.vector = none)
      (hrest : Selects zeroIndex value vector (p.past u) p' us actions us') :
      Selects zeroIndex value vector p p' (u :: us) (.drop :: actions) us'
  | keep {p p' : Place} {u u' : Usage V} {action : Action V} {us us' : List (Usage V)}
      {actions : List (Action V)} (hu : Kept zeroIndex value vector u action u')
      (hvalue : ∀ j < u.resultCount, value (p.first + j) = some (p'.first + j))
      (hvector : u.startsVector = true → vector p.vector = some p'.vector)
      (hrest : Selects zeroIndex value vector (p.past u) (p'.past u') us actions us') :
      Selects zeroIndex value vector p p' (u :: us) (action :: actions) (u' :: us')

variable {zeroIndex : Nat} {value vector : Nat → Option Nat} {p p' : Place} {u u' : Usage V}
  {us us' : List (Usage V)} {action : Action V} {actions : List (Action V)}

namespace Kept

theorem isKept (h : Kept zeroIndex value vector u action u') : action.isKept = true := by
  cases h <;> rfl

theorem kind_eq (h : Kept zeroIndex value vector u action u') : u'.kind = u.kind := by
  cases h with
  | copy h => exact h.kind_eq
  | rebind => rfl

theorem resultCount_eq (h : Kept zeroIndex value vector u action u') :
    u'.resultCount = u.resultCount := by
  cases h with
  | copy h => exact h.resultCount_eq
  | rebind => rfl

theorem startsVector_eq (h : Kept zeroIndex value vector u action u') :
    u'.startsVector = u.startsVector := by
  cases h with
  | copy h => exact h.startsVector_eq
  | rebind => rfl

/-- Other tables do as well if they say the same of what is read. -/
theorem transfer {value' vector' : Nat → Option Nat} (h : Kept zeroIndex value vector u action u')
    (hvalue : ∀ i ∈ u.reads, ∀ j, value i = some j → value' i = some j)
    (hvector : ∀ w ∈ u.vector?, ∀ w', vector w = some w' → vector' w = some w') :
    Kept zeroIndex value' vector' u action u' := by
  cases h with
  | copy h => exact .copy (h.transfer hvalue hvector)
  | rebind hlength h =>
    refine .rebind hlength (mapM_mono_of_some h fun (flag, i) hmem j hj => ?_)
    cases flag with
    | false => exact hj
    | true => exact hvalue i (List.mem_append_left _ (List.of_mem_zip hmem).2) j hj

theorem past_eq (h : Kept zeroIndex value vector u action u') (p : Place) :
    p.past u' = p.past u := by
  rw [Place.past, Place.past, h.resultCount_eq, h.startsVector_eq]

end Kept

namespace Selects

/-- The tables number the results and the vectors of the usages that stay. -/
theorem renumbers (h : Selects zeroIndex value vector p p' us actions us') :
    Renumbers value p.first p'.first ((us.map resultCount).zip (actions.map Action.isKept)) ∧
      Renumbers vector p.vector p'.vector ((us.map fun u => if u.startsVector then 1 else 0).zip
        (actions.map Action.isKept)) := by
  have hone {u : Usage V} {j : Nat} (hj : j < if u.startsVector = true then 1 else 0) :
      u.startsVector = true ∧ j = 0 := by
    split at hj
    · rename_i hstarts
      exact ⟨hstarts, Nat.lt_one_iff.mp hj⟩
    · cases hj
  induction h with
  | nil => exact ⟨.nil _ _, .nil _ _⟩
  | drop hvalue hvector _ ih =>
    refine ⟨.drop hvalue ih.1, .drop (fun j hj => ?_) ih.2⟩
    obtain ⟨hstarts, rfl⟩ := hone hj
    exact hvector hstarts
  | keep hu hvalue hvector _ ih =>
    rw [hu.past_eq] at ih
    rw [List.map_cons, List.map_cons, List.map_cons, hu.isKept]
    refine ⟨.keep hvalue ih.1, .keep (fun j hj => ?_) ih.2⟩
    obtain ⟨hstarts, rfl⟩ := hone hj
    exact hvector hstarts

theorem length_eq (h : Selects zeroIndex value vector p p' us actions us') :
    actions.length = us.length := by
  induction h with
  | nil => rfl
  | drop _ _ _ ih => rw [List.length_cons, List.length_cons, ih]
  | keep _ _ _ _ ih => rw [List.length_cons, List.length_cons, ih]

/-- The usages that are left are those that are kept, one by one and in their order. -/
theorem forall₂ {R : (Place × Usage V) × Nat → Place × Usage V → Prop} {n : Nat}
    {usage : Nat → Bool} (h : Selects zeroIndex value vector p p' us actions us')
    (husage : ∀ k, usage (n + k) = keptAt actions k)
    (hR : ∀ {k q u q' action u'}, (placed p us)[k]? = some (q, u) → actions[k]? = some action →
      Kept zeroIndex value vector u action u' →
      (∀ j < u.resultCount, value (q.first + j) = some (q'.first + j)) →
      (u.startsVector = true → vector q.vector = some q'.vector) →
      R ((q, u), n + k) (q', u')) :
    List.Forall₂ R (((placed p us).zipIdx n).filter fun (_, k) => usage k) (placed p' us') := by
  induction h generalizing n with
  | nil => exact .nil
  | @drop p p' u us us' actions _ _ _ ih =>
    have hhere : usage n = false := husage 0
    rw [placed, List.zipIdx_cons, List.filter_cons_of_neg (by simp [hhere])]
    refine ih (fun k => ?_) fun {k} _ _ _ _ _ hk haction => ?_
    · rw [Nat.add_assoc, Nat.add_comm 1]
      exact husage (k + 1)
    · rw [Nat.add_assoc, Nat.add_comm 1]
      exact hR (k := k + 1) hk haction
  | @keep p p' u u' action us us' actions hu hvalue hvector _ ih =>
    have hhere : usage n = true := (husage 0).trans hu.isKept
    rw [placed, List.zipIdx_cons, List.filter_cons_of_pos (by simp [hhere])]
    refine .cons (hR (k := 0) rfl rfl hu hvalue hvector)
      (ih (fun k => ?_) fun {k} _ _ _ _ _ hk haction => ?_)
    · rw [Nat.add_assoc, Nat.add_comm 1]
      exact husage (k + 1)
    · rw [Nat.add_assoc, Nat.add_comm 1]
      exact hR (k := k + 1) hk haction

theorem exists_of_mem (h : Selects zeroIndex value vector p p' us actions us') (hu' : u' ∈ us') :
    ∃ (k : Nat) (q : Place) (u : Usage V) (action : Action V), (placed p us)[k]? = some (q, u) ∧
      actions[k]? = some action ∧ Kept zeroIndex value vector u action u' := by
  induction h with
  | nil => cases hu'
  | drop _ _ _ ih =>
    obtain ⟨k, hk⟩ := ih hu'
    exact ⟨k + 1, hk⟩
  | @keep p _ u _ action _ _ _ hu _ _ _ ih =>
    rcases List.mem_cons.mp hu' with rfl | hu'
    · exact ⟨0, p, u, action, rfl, rfl, hu⟩
    · obtain ⟨k, hk⟩ := ih hu'
      exact ⟨k + 1, hk⟩

/-- What holds between what is left of an earlier and of a later usage holds throughout. -/
theorem pairwise {R : Usage V → Usage V → Prop}
    (h : Selects zeroIndex value vector p p' us actions us')
    (hR : ∀ {k l : Nat} {q q' : Place} {u w : Usage V} {action action' : Action V}
      {u' w' : Usage V}, k < l → (placed p us)[k]? = some (q, u) →
      (placed p us)[l]? = some (q', w) → actions[k]? = some action → actions[l]? = some action' →
      Kept zeroIndex value vector u action u' → Kept zeroIndex value vector w action' w' → R u' w') :
    us'.Pairwise R := by
  induction h with
  | nil => exact .nil
  | drop _ _ _ ih =>
    exact ih fun hkl hk hl hkept hkept' => hR (Nat.succ_lt_succ hkl) hk hl hkept hkept'
  | keep hu _ _ hrest ih =>
    refine .cons (fun w' hw' => ?_)
      (ih fun hkl hk hl hkept hkept' => hR (Nat.succ_lt_succ hkl) hk hl hkept hkept')
    obtain ⟨l, q', w, action', hl, hkept', hw⟩ := hrest.exists_of_mem hw'
    exact hR (k := 0) (l := l + 1) (Nat.succ_pos l) rfl hl rfl hkept' hu hw

end Selects

end Usage

/-! ## The selection of a tape -/

namespace Rebuild

variable {b b' b'' : Rebuild V} {u new : Usage V} {us : List (Usage V)} {action : Action V}
  {actions : List (Action V)}

/-- Further entries leave those of `b` alone. -/
structure Extends (b b' : Rebuild V) : Prop where
  values : b.values.size ≤ b'.values.size
  vectors : b.vectors.size ≤ b'.vectors.size
  value : ∀ i < b.values.size, b'.value? i = b.value? i
  vector : ∀ w < b.vectors.size, b'.vector? w = b.vector? w

theorem Extends.refl (b : Rebuild V) : b.Extends b :=
  ⟨Nat.le_refl _, Nat.le_refl _, fun _ _ => rfl, fun _ _ => rfl⟩

theorem Extends.trans (h : b.Extends b') (h' : b'.Extends b'') : b.Extends b'' where
  values := Nat.le_trans h.values h'.values
  vectors := Nat.le_trans h.vectors h'.vectors
  value i hi := (h'.value i (Nat.lt_of_lt_of_le hi h.values)).trans (h.value i hi)
  vector w hw := (h'.vector w (Nat.lt_of_lt_of_le hw h.vectors)).trans (h.vector w hw)

namespace Entered

variable {rs : List (Option Nat)} {which : Option Nat}

theorem extended (h : b.Entered u rs which b') : b.Extends b' where
  values := h.size_values ▸ Nat.le_add_right _ _
  vectors := h.size_vectors ▸ Nat.le_add_right _ _
  value i hi := by
    rw [value?, value?, h.values, Array.getElem?_append_left hi]
  vector w hw := by
    rw [vector?, vector?, h.vectors]
    split
    · rw [Array.getElem?_push_lt hw, Array.getElem?_eq_getElem hw]
    · rfl

theorem value?_add (h : b.Entered u rs which b') (k : Nat) :
    b'.value? (b.values.size + k) = rs[k]?.join := by
  rw [value?, h.values, Array.getElem?_append_right (Nat.le_add_right _ _),
    Nat.add_sub_cancel_left, List.getElem?_toArray]

theorem vector?_size (h : b.Entered u rs which b') (hstarts : u.startsVector = true) :
    b'.vector? b.vectors.size = which := by
  rw [vector?, h.vectors, if_pos hstarts, Array.getElem?_push_size]
  rfl

end Entered

variable {r : Registry V} {options : Options} {zeroIndex : Nat} {p : Place} {behind live : Live}

/-- What was decided on a usage is carried out. -/
theorem kept_of_decides (hu : Live.Decides r options zeroIndex p live u behind action)
    (hstep : Step b u action b') (hzero : b.tape.zeroIndex = zeroIndex) :
    action = .drop ∧ b' = (b.enterVector u none).enter (List.replicate u.resultCount none) ∨
      ∃ new, Usage.Kept zeroIndex b.value? b.vector? u action new ∧ b' = b.replaced u new := by
  cases hu with
  | drop =>
    cases hstep
    exact .inl ⟨rfl, rfl⟩
  | copy =>
    cases hstep with
    | copy hnew _ => exact .inr ⟨_, .copy hnew, rfl⟩
  | rebind =>
    cases hstep with
    | rebind hnew _ =>
      obtain ⟨hlength, inputs', hinputs, rfl⟩ := carryNeeded?_foreign_eq_some_iff.mp hnew
      rw [← hzero]
      exact .inr ⟨_, .rebind hlength hinputs, rfl⟩

/-- Carrying out what the sweep decided selects usages. The tables are those at the end. -/
theorem selects_of_run (hsweep : Live.Sweeps r options zeroIndex behind p us live actions)
    (hplace : b.place = p) (hzero : b.tape.zeroIndex = zeroIndex)
    (hrun : b.run? (us.zip actions) = some b') :
    ∃ us', b'.tape.body.toList = b.tape.body.toList ++ us' ∧ b.Extends b' ∧
      Usage.Selects zeroIndex b'.value? b'.vector? p
        { first := b.tape.valueCount, vector := b.tape.vectorCount } us actions us' := by
  induction hsweep generalizing b with
  | nil p =>
    obtain rfl := Option.some.inj hrun
    exact ⟨[], (List.append_nil _).symm, .refl b, .nil _ _⟩
  | @cons p u us live before action actions _ hu ih =>
    subst hplace
    obtain ⟨b₁, hstep, hrun⟩ := run?_cons_eq_some_iff.mp hrun
    rcases kept_of_decides hu hstep hzero with ⟨rfl, rfl⟩ | ⟨new, hnew, rfl⟩
    · have hentered := entered_dropped b u
      have htape : ((b.enterVector u none).enter (List.replicate u.resultCount none)).tape
          = b.tape := tape_enterVector b u none
      obtain ⟨us', hbody, hextends, hselects⟩ := ih hentered.place_eq (htape ▸ hzero) hrun
      rw [htape] at hbody hselects
      refine ⟨us', hbody, hentered.extended.trans hextends, .drop (fun j hj => ?_) (fun hstarts => ?_)
        hselects⟩
      · have hlt := hentered.size_values
        show b'.value? (b.values.size + j) = none
        rw [hextends.value _ (by omega), hentered.value?_add]
        simp [hj]
      · have hlt := hentered.size_vectors
        rw [if_pos hstarts] at hlt
        show b'.vector? b.vectors.size = none
        rw [hextends.vector _ (by omega), hentered.vector?_size hstarts]
    · have hentered := entered_replaced b u new
      have htape : (b.replaced u new).tape = b.tape.push new := by
        rw [replaced_eq, tape_enter, tape_enterVector, tape_pushed]
      obtain ⟨us', hbody, hextends, hselects⟩ :=
        ih hentered.place_eq (by rw [htape]; exact hzero) hrun
      rw [htape, Tape.body_push, Array.toList_push, List.append_assoc] at hbody
      rw [htape] at hselects
      have hall := hentered.extended.trans hextends
      refine ⟨new :: us', hbody, hall, .keep (hnew.transfer (fun i _ j hj => ?_) fun w _ w' hw => ?_)
        (fun j hj => ?_) (fun hstarts => ?_) hselects⟩
      · rw [hall.value i (lt_of_value? hj), hj]
      · rw [hall.vector w (lt_of_vector? hw), hw]
      · have hlt := hentered.size_values
        show b'.value? (b.values.size + j) = some (b.tape.valueCount + j)
        rw [hextends.value _ (by omega), hentered.value?_add]
        simp [hj]
      · have hlt := hentered.size_vectors
        rw [if_pos hstarts] at hlt
        show b'.vector? b.vectors.size = some b.tape.vectorCount
        rw [hextends.vector _ (by omega), hentered.vector?_size hstarts]

end Rebuild

namespace Tape

variable [Scalar V]

/-- The new tape is what the actions leave of the old one. -/
structure Selection (t : Tape V) (actions : List (Action V)) (t' : Tape V)
    (value vector : Nat → Option Nat) : Prop where
  indCount_eq : t'.indCount = t.indCount
  options_eq : t'.options = t.options
  usages : Usage.Selects t.zeroIndex value vector t.zeroPlace t'.zeroPlace t.usages actions t'.usages
  independents : ∀ i < t.indCount, value i = some i
  dependents : ∃ ds, t.dependents.mapM value = some ds ∧ t'.deps = some ds

variable {t t' : Tape V} {r : Registry V} {live : Live} {actions : List (Action V)}
  {value vector : Nat → Option Nat}

theorem selection_of_rebuild (h : t.liveness r = .ok (live, actions))
    (hrebuild : t.rebuild actions = .ok t') :
    ∃ value vector, t.Selection (.copy :: actions) t' value vector := by
  obtain ⟨hindCount, hoptions⟩ := rebuild_inherits hrebuild
  obtain ⟨-, b, hrun, hfinish⟩ := rebuild_eq_ok_iff.mp hrebuild
  obtain ⟨ds, hds, hset⟩ := Rebuild.finish?_eq_some_iff.mp hfinish
  obtain ⟨-, rfl⟩ := setDependents?_eq_some_iff.mp hset
  obtain ⟨us', hbody, hextends, hselects⟩ :=
    Rebuild.selects_of_run (Live.sweep_eq_ok_iff.mp h) (Rebuild.place_start t) rfl hrun
  have hfirst (i : Nat) (hi : i < t.indCount + 1) : b.value? i = some i := by
    rw [hextends.value i (by simpa [Rebuild.start] using hi), Rebuild.value?_start]
    exact ⟨hi, rfl⟩
  refine ⟨b.value?, b.vector?, hindCount, hoptions, ?_, fun i hi => hfirst i (by omega), ds, hds, rfl⟩
  have hplace : ({ b.tape with deps := some ds } : Tape V).zeroPlace = t.zeroPlace :=
    congrArg (Place.mk · 0) hindCount
  have hbody' : b.tape.body.toList = us' := hbody
  rw [hplace]
  show Usage.Selects _ _ _ _ _ _ _ (.constant Scalar.zero :: b.tape.body.toList)
  rw [hbody']
  refine .keep (.copy (.constant _)) (fun j hj => ?_) (fun hstarts => by cases hstarts) hselects
  obtain rfl := Nat.lt_one_iff.mp hj
  exact hfirst _ (Nat.lt_succ_self _)

namespace Selection

theorem value_zero (h : t.Selection (.copy :: actions) t' value vector) :
    value t.zeroIndex = some t.zeroIndex := by
  have hzero := h.usages
  cases hzero with
  | keep _ hvalue _ _ =>
    have hfirst := hvalue 0 Nat.one_pos
    rw [zeroPlace, zeroPlace, h.indCount_eq] at hfirst
    exact hfirst

/-- No two values share a name on the new tape. -/
theorem value_injective (h : t.Selection actions t' value vector) :
    InjectiveBelow value t.valueCount := by
  have hrenumbers := h.usages.renumbers.1
  have hfirst : t'.zeroPlace.first = t.zeroPlace.first := h.indCount_eq
  rw [hfirst, ← Nat.zero_add t.zeroPlace.first] at hrenumbers
  have hall := Renumbers.keep (fun j hj => by simpa using h.independents j hj) hrenumbers
  refine hall.injectiveBelow ?_
  rw [List.map_cons, List.map_fst_zip (by simp [h.usages.length_eq]), List.sum_cons,
    Usage.sum_map_resultCount, first_add_resultTotal]

/-- No two vectors share a number on the new tape. -/
theorem vector_injective (h : t.Selection actions t' value vector) :
    InjectiveBelow vector t.vectorCount := by
  refine h.usages.renumbers.2.injectiveBelow ?_
  rw [List.map_fst_zip (by simp [h.usages.length_eq]), Usage.sum_map_startsVector,
    countP_startsVector_usages]

end Selection

/-! ## The needed part of a tape -/

end Tape

/-- How a needed usage stands on the new tape: with its operands under their new names, or, as a
registered function, with zero in the place of each input that its answer leaves out. It was asked
for all needed results of the usage, which has its first one at `first`. -/
inductive Usage.Carried (r : Registry V) (needed : Nat → Bool) (zeroIndex : Nat)
    (value vector : Nat → Option Nat) (first : Nat) : Usage V → Usage V → Prop
  | renamed {u u' : Usage V} (hkind : u.kind.family? = none) (h : Renames value vector u u') :
      Carried r needed zeroIndex value vector first u u'
  | rebound {family : Family} {id callId n : Nat} {inputs inputs' : List Nat}
      {answer : Vector Bool inputs.length}
      (hanswer : r.dependence family id callId ((List.range' first n).map needed) inputs.length
        = .ok answer)
      (h : (answer.toList.zip inputs).mapM (fun (isRead, i) =>
        if isRead then value i else some zeroIndex) = some inputs') :
      Carried r needed zeroIndex value vector first (.foreign family id callId n inputs)
        (.foreign family id callId n inputs')

namespace Tape

variable [Scalar V]

/-- The usages of the new tape are the needed ones of the old tape, one by one and in their order.
The tables take results and vectors of the old usage to those of the new one. -/
structure IsNeededPart (t : Tape V) (r : Registry V) (needed usage : Nat → Bool) (t' : Tape V)
    (value vector : Nat → Option Nat) : Prop where
  indCount_eq : t'.indCount = t.indCount
  options_eq : t'.options = t.options
  usages : List.Forall₂ (fun ((p, u), _) (p', u') =>
      u.Carried r needed t.zeroIndex value vector p.first u' ∧
      (∀ j < u.resultCount, value (p.first + j) = some (p'.first + j)) ∧
      (u.startsVector = true → vector p.vector = some p'.vector))
    (t.placed.zipIdx.filter fun (_, k) => usage k) t'.placed
  independents : ∀ i < t.indCount, value i = some i
  dependents : ∃ ds, t.dependents.mapM value = some ds ∧ t'.deps = some ds

variable {t t' : Tape V} {r : Registry V} {live : Live} {actions : List (Action V)}
  {value vector : Nat → Option Nat}

theorem Selection.isNeededPart (hselection : t.Selection (.copy :: actions) t' value vector)
    (ht : t.WellFormed) (h : t.liveness r = .ok (live, actions)) :
    t.IsNeededPart r live.values.contains (keptAt (.copy :: actions)) t' value vector where
  indCount_eq := hselection.indCount_eq
  options_eq := hselection.options_eq
  independents := hselection.independents
  dependents := hselection.dependents
  usages := by
    refine hselection.usages.forall₂ (n := 0) (fun k => by rw [Nat.zero_add])
      fun {k q u q' action u'} hk haction hu hvalue hvector => ⟨?_, hvalue, hvector⟩
    have hkept := (keptAt_of_getElem? haction).trans hu.isKept
    cases hu with
    | copy hu =>
      cases u with
      | foreign =>
        obtain ⟨answer, -, hasked⟩ := ht.exists_answer h hk hkept
        cases haction.symm.trans hasked
      | _ => exact .renamed rfl hu
    | rebind _ hinputs =>
      obtain ⟨answer, hanswer, hasked⟩ := ht.exists_answer h hk hkept
      cases haction.symm.trans hasked
      exact .rebound hanswer hinputs

/-- Dropping dead code leaves the needed part, for the one solution of the equations. -/
theorem WellFormed.neededPart_of_dropDead (ht : t.WellFormed) (h : t.dropDead r = .ok t') :
    ∃ live actions value vector, t.liveness r = .ok (live, actions) ∧
      t.IsNeededPart r live.values.contains (keptAt (.copy :: actions)) t' value vector := by
  obtain ⟨live, actions, hlive, hrebuild⟩ := dropDead_eq_ok h
  obtain ⟨value, vector, hselection⟩ := selection_of_rebuild hlive hrebuild
  exact ⟨live, actions, value, vector, hlive, hselection.isNeededPart ht hlive⟩

/-- One sweep from behind solves the liveness equations. What it finds is the only solution of
them, and the tape without dead code is the needed usages in their order, where a registered
function is bound to zero at each input that its answer for the needed results leaves out. -/
theorem liveness_solves [DecidableEq V] (ht : t.Reachable) (h : t.liveness r = .ok (live, actions)) :
    t.LiveEquations r live.values.contains (keptAt (.copy :: actions)) ∧
    (∀ needed usage, t.LiveEquations r needed usage →
      (∀ i < t.valueCount, needed i = live.values.contains i) ∧
      ∀ k < t.usages.length, usage k = keptAt (.copy :: actions) k) ∧
    ∃ t' value vector, t.dropDead r = .ok t' ∧
      t.IsNeededPart r live.values.contains (keptAt (.copy :: actions)) t' value vector := by
  have hsolution := ht.wellFormed.liveEquations h
  refine ⟨hsolution, fun needed usage hother => hother.unique hsolution ht.wellFormed, ?_⟩
  obtain ⟨t', hdrop⟩ := ht.wellFormed.exists_dropDead h
  obtain ⟨live', actions', value, vector, hsweep, hpart⟩ :=
    ht.wellFormed.neededPart_of_dropDead hdrop
  obtain ⟨rfl, rfl⟩ := Prod.mk.inj (Except.ok.inj (h.symm.trans hsweep))
  exact ⟨t', value, vector, hdrop, hpart⟩

/-- Of two inputs handed on the second is needed. -/
theorem liveness_solves_handedOn :
    (handedOn [4]).Reachable ∧
      (handedOn [4]).liveness .forgetting
        = .ok ({ values := ⟨#[false, true, true, false, true]⟩ }, [.rebind [false, true]]) ∧
      (handedOn [4]).dropDead .forgetting = .ok handedOnSecond ∧
      (handedOn [4]).LiveEquations .forgetting
        (IndexSet.contains ⟨#[false, true, true, false, true]⟩)
        (keptAt (V := Float) [.copy, .rebind [false, true]]) ∧
      ∃ value vector, (handedOn [4]).IsNeededPart .forgetting
        (IndexSet.contains ⟨#[false, true, true, false, true]⟩)
        (keptAt (V := Float) [.copy, .rebind [false, true]]) handedOnSecond value vector := by
  have hreachable : (handedOn [4]).Reachable :=
    ((Reachable.new 2 {}).push (by decide)).withDependents rfl (by decide)
  have hlive : (handedOn [4]).liveness .forgetting
      = .ok ({ values := ⟨#[false, true, true, false, true]⟩ }, [.rebind [false, true]]) := by
    with_unfolding_all rfl
  have hdrop : (handedOn [4]).dropDead .forgetting = .ok handedOnSecond := by
    with_unfolding_all rfl
  obtain ⟨hsolution, -, t', value, vector, hdrop', hpart⟩ := liveness_solves hreachable hlive
  obtain rfl := Except.ok.inj (hdrop.symm.trans hdrop')
  exact ⟨hreachable, hlive, hdrop, hsolution, value, vector, hpart⟩

end Tape

end OpTape
