import OpTape.Proofs.Refusals
import OpTape.Proofs.Shrinking
/-
  What constant folding leaves. `Tape.Folded` says that nothing is left to fold: no usage that
  folding would compute has constants only for operands, no select and no comparison that holds is
  between constants, and each result of a registered function that is read depends, as the function
  says, on an input that is not constant. `Known.Mirrors` is the invariant of the walk beside the
  new tape: a constant of the new tape is known under every old value that it stands for, so what
  the walk left alone, because some operand was not known, has an operand there that is not
  constant. What was folded has become a constant, and nothing reads the old results any more.
-/
namespace OpTape

variable {V : Type}

/-! ## Constants of a tape -/

namespace Tape

variable [Scalar V] {t : Tape V} {u : Usage V} {i j k : Nat} {p : Place} {v w : V}

/-- Value `i` is the result of a constant `v`. -/
def HoldsConstant (t : Tape V) (i : Nat) (v : V) : Prop :=
  ∃ (k : Nat) (p : Place), t.placed[k]? = some (p, .constant v) ∧ p.first = i

/-- Value `i` is the result of a constant. -/
def IsConstant (t : Tape V) (i : Nat) : Prop := ∃ v, t.HoldsConstant i v

/-- A usage reads the value, or it is a dependent. -/
def IsRead (t : Tape V) (i : Nat) : Prop := i ∈ t.dependents ∨ ∃ u ∈ t.usages, i ∈ u.reads

theorem HoldsConstant.lt (h : t.HoldsConstant i v) : i < t.valueCount := by
  obtain ⟨k, p, hk, rfl⟩ := h
  have hle : p.first + 1 ≤ t.valueCount := results_le hk
  omega

/-- A result is constant where its usage is a constant. -/
theorem holdsConstant_iff (hk : t.placed[k]? = some (p, u)) (hj : j < u.resultCount) :
    t.HoldsConstant (p.first + j) v ↔ u = .constant v := by
  constructor
  · rintro ⟨l, q, hl, hfirst⟩
    obtain ⟨rfl, -⟩ := Usage.eq_of_results hl hk Nat.one_pos hj (by rw [hfirst]; rfl)
    exact (Prod.mk.inj (Option.some.inj (hl.symm.trans hk))).2.symm
  · rintro rfl
    obtain rfl := Nat.lt_one_iff.mp hj
    exact ⟨k, p, hk, rfl⟩

theorem HoldsConstant.unique (h : t.HoldsConstant i v) (h' : t.HoldsConstant i w) : v = w := by
  obtain ⟨k, p, hk, rfl⟩ := h
  exact Usage.constant.inj ((holdsConstant_iff (j := 0) hk Nat.one_pos).mp h')

theorem HoldsConstant.push (h : t.HoldsConstant i v) (u : Usage V) :
    (t.push u).HoldsConstant i v := by
  obtain ⟨k, p, hk, rfl⟩ := h
  have hlt := (List.getElem?_eq_some_iff.mp hk).1
  exact ⟨k, p, by rw [placed_push, List.getElem?_append_left hlt, hk], rfl⟩

/-- Recording a usage leaves the values that are there alone. -/
theorem holdsConstant_push (hi : i < t.valueCount) :
    (t.push u).HoldsConstant i v ↔ t.HoldsConstant i v := by
  refine ⟨fun ⟨k, p, hk, hfirst⟩ => ?_, fun h => h.push u⟩
  rcases placed_push_cases hk with hk | ⟨-, rfl, -⟩
  · exact ⟨k, p, hk, hfirst⟩
  · exact absurd hi (Nat.not_lt_of_le (Nat.le_of_eq hfirst))

end Tape

/-! ## Nothing left to fold -/

namespace Usage

/-- Nothing is left to fold at a usage, given the constants among its operands. -/
def IsFolded [Scalar V] (constant : Nat → V → Prop) : Usage V → Prop
  | compare cmp x y => ∀ v w, constant x v → constant y w → cmp.holds v w = false
  | select _ x y _ _ => ∀ v w, constant x v → ¬ constant y w
  | u => u.isPlain = true → ∃ i ∈ u.args, ∀ v, ¬ constant i v

/-- Result `j` of a registered function reads, by its own account, an input that is no constant. -/
def IsOpen (r : Registry V) (constant : Nat → V → Prop) (j : Nat) : Usage V → Prop
  | foreign family id callId n inputs => ∃ (m i : Nat),
      (r.marks family id callId (onlyResult n j) inputs.length)[m]? = some true ∧
        inputs[m]? = some i ∧ ∀ v, ¬ constant i v
  | _ => True

variable {u u' : Usage V} {value vector : Nat → Option Nat} {constant constant' : Nat → V → Prop}
  {r : Registry V} {j : Nat}

theorem IsFolded.exists_not_constant [Scalar V] (hu : u.IsFolded constant)
    (hplain : u.isPlain = true) : ∃ i ∈ u.args, ∀ v, ¬ constant i v := by
  cases u with
  | unary | binary | discrete | sum => exact hu rfl
  | _ => cases hplain

/-- A renamed usage is folded if no name is a constant that the value was not. -/
theorem IsFolded.renamed [Scalar V] (hu : u.IsFolded constant) (h : Renames value vector u u')
    (hconstant : ∀ i ∈ u.reads, ∀ j, value i = some j → ∀ v, constant' j v → constant i v) :
    u'.IsFolded constant' := by
  have hplain (hu : u.isPlain = true → ∃ i ∈ u.args, ∀ v, ¬ constant i v)
      (hsame : u'.isPlain = u.isPlain) :
      u'.isPlain = true → ∃ i ∈ u'.args, ∀ v, ¬ constant' i v := by
    intro hisPlain
    obtain ⟨i, hi, hnot⟩ := hu (hsame ▸ hisPlain)
    have hmem : value i ∈ u'.args.map some := h.map_args ▸ List.mem_map_of_mem hi
    obtain ⟨j, hj, hij⟩ := List.mem_map.mp hmem
    exact ⟨j, hj, fun v hv => hnot v (hconstant i (List.mem_append_left _ hi) j hij.symm v hv)⟩
  cases h with
  | compare hx hy =>
    intro v w hv hw
    exact hu v w (hconstant _ (by simp [reads, args]) _ hx v hv)
      (hconstant _ (by simp [reads, args]) _ hy w hw)
  | select hx hy =>
    intro v w hv hw
    exact hu v w (hconstant _ (by simp [reads, args]) _ hx v hv)
      (hconstant _ (by simp [reads, args]) _ hy w hw)
  | _ => exact hplain hu rfl

theorem IsFolded.mono [Scalar V] (hu : u.IsFolded constant)
    (hconstant : ∀ i ∈ u.reads, ∀ v, constant' i v → constant i v) : u.IsFolded constant' :=
  hu.renamed (.refl u) fun i hi j hij => by
    obtain rfl := Option.some.inj hij
    exact hconstant i hi

theorem IsOpen.renamed (hu : u.IsOpen r constant j) (h : Renames value vector u u')
    (hconstant : ∀ i ∈ u.reads, ∀ j, value i = some j → ∀ v, constant' j v → constant i v) :
    u'.IsOpen r constant' j := by
  cases h with
  | @foreign family id callId n inputs inputs' hinputs =>
    obtain ⟨m, i, hmark, hi, hnot⟩ := hu
    have hname := congrArg (·[m]?) (mapM_eq_some_iff.mp hinputs)
    simp only [List.getElem?_map, hi, Option.map_some] at hname
    obtain ⟨i', hi', hii'⟩ := Option.map_eq_some_iff.mp hname.symm
    refine ⟨m, i', ?_, hi', fun v hv => hnot v (hconstant i ?_ i' hii'.symm v hv)⟩
    · rw [length_of_mapM_some hinputs]
      exact hmark
    · exact List.mem_append_left _ (List.mem_of_getElem? hi)
  | _ => trivial

theorem IsOpen.mono (hu : u.IsOpen r constant j)
    (hconstant : ∀ i ∈ u.reads, ∀ v, constant' i v → constant i v) : u.IsOpen r constant' j :=
  hu.renamed (.refl u) fun i hi j hij => by
    obtain rfl := Option.some.inj hij
    exact hconstant i hi

end Usage

/-- Nothing is left to fold on the tape. -/
structure Tape.Folded [Scalar V] (t : Tape V) (r : Registry V) : Prop where
  usages : ∀ u ∈ t.usages, u.IsFolded t.HoldsConstant
  results : ∀ {k : Nat} {p : Place} {u : Usage V} {j : Nat}, t.placed[k]? = some (p, u) →
    j < u.resultCount → t.IsRead (p.first + j) → u.IsOpen r t.HoldsConstant j

/-! ## The walk -/

namespace Known

variable {known : Known V} {results : List (Option V)} {i : Nat}

theorem value?_append_of_lt (hi : i < known.size) :
    Known.value? (known ++ results : Array (Option V)) i = known.value? i := by
  rw [value?, append_list_eq, Array.getElem?_append_left hi]
  rfl

theorem value?_append_add (k : Nat) :
    Known.value? (known ++ results : Array (Option V)) (known.size + k) = results[k]?.join := by
  rw [value?, append_list_eq, Array.getElem?_append_right (Nat.le_add_right _ _),
    Nat.add_sub_cancel_left, List.getElem?_toArray]

theorem restrict_of_all {flags : List Bool} {vals : List V} (hlength : flags.length = vals.length)
    (hall : flags.all (·) = true) : restrict flags vals = vals.map some := by
  induction flags generalizing vals with
  | nil =>
    obtain rfl := List.length_eq_zero_iff.mp hlength.symm
    rfl
  | cons flag flags ih =>
    cases vals with
    | nil => cases hlength
    | cons v vals =>
      obtain ⟨rfl, hrest⟩ := Bool.and_eq_true_iff.mp (List.all_cons ▸ hall)
      exact congrArg (some v :: ·) (ih (Nat.succ.inj hlength) hrest)

variable [Scalar V] {r : Registry V} {u : Usage V} {action : Action V} {j : Nat}

/-- What is left alone has nothing to fold in it. -/
theorem isFolded_of_visit (h : known.visit r u = .ok (results, .copy)) :
    u.IsFolded (known.value? · = some ·) := by
  have hplain {w : Usage V} (hw : w.isPlain) (h : known.visit r w = .ok (results, .copy)) :
      ∃ i ∈ w.args, ∀ v, ¬ known.value? i = some v := by
    rw [visit_of_isPlain hw] at h
    split at h
    · obtain ⟨vals, -, hvals⟩ := map_eq_ok_iff.mp h
      cases hvals
    · rename_i hall
      have hreads : w.reads = w.args := by
        cases w <;> first | exact List.append_nil _ | cases hw
      rw [hreads, Bool.not_eq_true, List.all_eq_false] at hall
      obtain ⟨i, hi, hunknown⟩ := hall
      refine ⟨i, hi, fun v hv => hunknown ?_⟩
      rw [isKnown, hv]
      rfl
  cases u with
  | compare cmp x y =>
    intro v w hv hw
    simp only [visit, hv, hw] at h
    by_cases hheld : cmp.holds v w = true
    · rw [if_pos hheld] at h
      cases h
    · exact Bool.not_eq_true _ ▸ hheld
  | select cmp x y a b =>
    intro v w hv hw
    simp only [visit, hv, hw] at h
    cases h
  | unary | binary | discrete | sum => exact fun _ => hplain rfl h
  | _ => exact fun hisPlain => absurd hisPlain Bool.false_ne_true

omit [Scalar V] in
/-- A result that is not constant reads an input that is not. -/
theorem isOpen_of_constancy (hd : r.DerivesConstancy) {family : Family} {id callId n : Nat}
    {inputs : List Nat} {flags : Vector Bool n}
    (hflags : r.constancy family id callId (inputs.map known.isKnown) n = .ok flags)
    (hj : flags.toList[j]? = some false) :
    (Usage.foreign family id callId n inputs).IsOpen r (known.value? · = some ·) j := by
  obtain ⟨f, hget, hderived⟩ := Registry.constancy_eq_ok hflags
  rw [hd family id f hget] at hderived
  obtain ⟨hlt, hflag⟩ := List.getElem?_eq_some_iff.mp hj
  have hlt : j < n := by simpa using hlt
  obtain ⟨reads, hreads, hall⟩ := bind_eq_ok_iff.mp (eq_ok_of_collect hderived ⟨j, hlt⟩)
  have hunmarked : (reads.toList.zip (inputs.map known.isKnown)).all
      (fun pair => !pair.1 || pair.2) = false := by
    rw [Except.ok.inj hall]
    simpa using hflag
  obtain ⟨⟨isRead, isConstant⟩, hmem, hpair⟩ := List.all_eq_false.mp hunmarked
  obtain ⟨rfl, rfl⟩ : isRead = true ∧ isConstant = false := by simpa using hpair
  obtain ⟨m, hm⟩ := List.mem_iff_getElem?.mp hmem
  obtain ⟨hread, hinput⟩ := List.getElem?_zip_eq_some.mp hm
  rw [List.getElem?_map, Option.map_eq_some_iff] at hinput
  obtain ⟨i, hi, hunknown⟩ := hinput
  have hdependence : r.dependence family id callId (onlyResult n j)
      (inputs.map known.isKnown).length = .ok reads :=
    bind_eq_ok_iff.mpr ⟨f, hget, mapError_eq_ok_iff.mpr hreads⟩
  have hmark : (r.marks family id callId (onlyResult n j)
      (inputs.map known.isKnown).length)[m]? = some true := by
    rw [Registry.marks_of_dependence hdependence, hread]
  rw [List.length_map] at hmark
  exact ⟨m, i, hmark, hi, fun v hv => by simp [isKnown, hv] at hunknown⟩

/-- A result that nothing is known of is open. -/
theorem isOpen_of_visit (hd : r.DerivesConstancy) (h : known.visit r u = .ok (results, action))
    (hj : results[j]? = some none) : u.IsOpen r (known.value? · = some ·) j := by
  cases u with
  | foreign family id callId n inputs =>
    simp only [visit] at h
    obtain ⟨flags, hflags, h⟩ := bind_eq_ok_iff.mp h
    refine isOpen_of_constancy hd hflags ?_
    split at h
    · obtain ⟨vals, -, h⟩ := bind_eq_ok_iff.mp h
      have hresults : results = restrict flags.toList vals := by
        split at h <;> exact (Prod.mk.inj (Except.ok.inj h)).1.symm
      obtain ⟨v, -, ⟨-, hflag⟩ | ⟨hflag, -⟩⟩ := getElem?_restrict (hresults ▸ hj)
      · cases hflag
      · exact hflag
    · rename_i hnone
      obtain ⟨rfl, -⟩ := Prod.mk.inj (Except.ok.inj h)
      obtain ⟨hlt, -⟩ := List.getElem?_eq_some_iff.mp hj
      have hlt : j < flags.toList.length := by simpa [Usage.resultCount] using hlt
      rw [Bool.not_eq_true, List.any_eq_false] at hnone
      have hflag := hnone _ (List.getElem_mem hlt)
      rw [List.getElem?_eq_getElem hlt, Bool.eq_false_of_not_eq_true hflag]
  | _ => trivial

/-! ## The walk and the new tape -/

/-- Value `j` of the new tape stands for a value of which `known` is known: it is no constant but
this one, and no result of a registered function that has become constant. -/
structure StandsFor (r : Registry V) (t : Tape V) (j : Nat) (known : Option V) : Prop where
  lt : j < t.valueCount
  constant : ∀ v, t.HoldsConstant j v → known = some v
  isOpen : r.DerivesConstancy → ∀ {k : Nat} {p : Place} {u : Usage V} {m : Nat},
    t.placed[k]? = some (p, u) → m < u.resultCount → p.first + m = j →
    u.IsOpen r t.HoldsConstant m

theorem StandsFor.push {t : Tape V} {known : Option V} (h : StandsFor r t j known)
    (ht : t.WellFormed) (u : Usage V) : StandsFor r (t.push u) j known where
  lt := Nat.lt_of_lt_of_le h.lt (Nat.le_add_right _ _)
  constant v hv := h.constant v ((Tape.holdsConstant_push h.lt).mp hv)
  isOpen hd {k p w m} hk hm hfirst := by
    have hlt := h.lt
    rcases Tape.placed_push_cases hk with hk | ⟨-, rfl, -⟩
    · refine (h.isOpen hd hk hm hfirst).mono fun i hi v hv => ?_
      have hmem : w ∈ t.usages := Tape.mem_usages_of_placed hk
      exact (Tape.holdsConstant_push ((ht.fits_of_mem hmem).1 i hi)).mp hv
    · exact absurd hlt (Nat.not_lt_of_le (Nat.le.intro hfirst))

theorem standsFor_result {t : Tape V} {k : Nat} {p : Place} {known : Option V}
    (hk : t.placed[k]? = some (p, u)) (hj : j < u.resultCount)
    (hconstant : ∀ v, u = .constant v → known = some v)
    (hopen : r.DerivesConstancy → u.IsOpen r t.HoldsConstant j) :
    StandsFor r t (p.first + j) known where
  lt := by
    have hle := Tape.results_le hk
    omega
  constant v hv := hconstant v ((Tape.holdsConstant_iff hk hj).mp hv)
  isOpen hd {l q w m} hl hm hfirst := by
    obtain ⟨rfl, rfl⟩ := Usage.eq_of_results hl hk hm hj hfirst
    obtain ⟨-, rfl⟩ := Prod.mk.inj (Option.some.inj (hl.symm.trans hk))
    exact hopen hd

theorem standsFor_constant (t : Tape V) (v : V) :
    StandsFor r (t.push (.constant v)) t.valueCount (some v) :=
  standsFor_result (j := 0) (Tape.placed_push_last t (.constant v)) Nat.one_pos
    (fun _ hw => congrArg some (Usage.constant.inj hw)) fun _ => trivial

/-- The new tape has nothing to fold so far, and its values stand for what is known of the old
ones. -/
structure Mirrors (r : Registry V) (known : Known V) (b : Rebuild V) : Prop where
  wellFormed : b.tape.WellFormed
  size : known.size = b.values.size
  value : ∀ {i j}, b.value? i = some j → StandsFor r b.tape j (known.value? i)
  reads : ∀ u ∈ b.tape.usages, ∀ j ∈ u.reads, ∃ i, b.value? i = some j
  folded : ∀ u ∈ b.tape.usages, u.IsFolded b.tape.HoldsConstant

namespace Mirrors

variable {b b' : Rebuild V} {new : Usage V}

theorem pushed (h : Mirrors r known b) (hadmits : b.tape.Admits new)
    (hreads : ∀ j ∈ new.reads, ∃ i, b.value? i = some j)
    (hfolded : new.IsFolded b.tape.HoldsConstant) : Mirrors r known (b.pushed new) where
  wellFormed := h.wellFormed.push hadmits
  size := h.size
  value hij := (h.value hij).push h.wellFormed new
  reads w hw := by
    rcases Tape.mem_usages_push.mp hw with hw | rfl
    · exact h.reads w hw
    · exact hreads
  folded w hw := by
    have hlt : ∀ i ∈ w.reads, i < b.tape.valueCount := by
      rcases Tape.mem_usages_push.mp hw with hw | rfl
      · exact (h.wellFormed.fits_of_mem hw).1
      · exact hadmits.1
    have hsame : w.IsFolded b.tape.HoldsConstant := by
      rcases Tape.mem_usages_push.mp hw with hw | rfl
      · exact h.folded w hw
      · exact hfolded
    exact hsame.mono fun i hi v hv => (Tape.holdsConstant_push (hlt i hi)).mp hv

theorem withConstants (h : Mirrors r known b) (values : List (Option V)) :
    Mirrors r known (b.withConstants values) := by
  induction values generalizing b with
  | nil => exact h
  | cons value rest ih =>
    cases value with
    | none => exact ih h
    | some v =>
      exact ih (h.pushed (Rebuild.admits_constant b.tape v) (fun _ hj => by cases hj)
        fun hplain => by cases hplain)

theorem enterVector (h : Mirrors r known b) (u : Usage V) (w : Option Nat) :
    Mirrors r known (b.enterVector u w) := by
  have htape : (b.enterVector u w).tape = b.tape := Rebuild.tape_enterVector b u w
  have hvalue (i : Nat) : (b.enterVector u w).value? i = b.value? i :=
    Rebuild.value?_enterVector b u w i
  refine ⟨htape ▸ h.wellFormed, by rw [Rebuild.values_enterVector, h.size], fun hij => ?_, ?_, ?_⟩
  · rw [htape]
    exact h.value ((hvalue _).symm.trans hij)
  · rw [htape]
    intro w hw j hj
    obtain ⟨i, hi⟩ := h.reads w hw j hj
    exact ⟨i, (hvalue i).trans hi⟩
  · rw [htape]
    exact h.folded

theorem enter (h : Mirrors r known b) {rs : List (Option Nat)}
    (hlength : results.length = rs.length)
    (hrs : ∀ {k j : Nat}, rs[k]? = some (some j) → StandsFor r b.tape j results[k]?.join) :
    Mirrors r (known ++ results : Array (Option V)) (b.enter rs) where
  wellFormed := h.wellFormed
  size := by simp [append_list_eq, h.size, hlength]
  value {i j} hij := by
    rcases Rebuild.value?_enter_cases hij with hij | ⟨k, rfl, hk⟩
    · rw [value?_append_of_lt (h.size ▸ Rebuild.lt_of_value? hij)]
      exact h.value hij
    · rw [← h.size, value?_append_add]
      exact hrs hk
  reads u hu j hj := by
    obtain ⟨i, hi⟩ := h.reads u hu j hj
    exact ⟨i, by rw [Rebuild.value?_enter_of_lt (Rebuild.lt_of_value? hi), hi]⟩
  folded := h.folded

end Mirrors

theorem StandsFor.withConstants {b : Rebuild V} {known : Option V} (h : StandsFor r b.tape j known)
    (ht : b.tape.WellFormed) (values : List (Option V)) :
    StandsFor r (b.withConstants values).tape j known := by
  induction values generalizing b with
  | nil => exact h
  | cons value rest ih =>
    cases value with
    | none => exact ih h ht
    | some v =>
      exact ih (b := b.pushed (.constant v)) (h.push ht _)
        (ht.push (Rebuild.admits_constant b.tape v))

/-- What stands for a result with a value is a constant with this value. -/
theorem standsFor_constantIndices {b : Rebuild V} {first k : Nat} {values : List (Option V)}
    (ht : b.tape.WellFormed)
    (hnone : ∀ {k : Nat}, values[k]? = some none → StandsFor r b.tape (first + k) none)
    (hj : (Rebuild.constantIndices first b.tape.valueCount values)[k]? = some (some j)) :
    StandsFor r (b.withConstants values).tape j values[k]?.join := by
  induction values generalizing b first k with
  | nil => cases hj
  | cons value rest ih =>
    cases value with
    | none =>
      cases k with
      | zero =>
        obtain rfl : first = j := Option.some.inj (Option.some.inj hj)
        exact (hnone (k := 0) rfl).withConstants ht rest
      | succ k =>
        have hrest : (Rebuild.constantIndices (first + 1) b.tape.valueCount rest)[k]?
            = some (some j) := hj
        refine ih ht (fun {k} hk => ?_) hrest
        rw [Nat.add_assoc, Nat.add_comm 1]
        exact hnone (k := k + 1) hk
    | some v =>
      have ht' := ht.push (Rebuild.admits_constant b.tape v)
      cases k with
      | zero =>
        obtain rfl : b.tape.valueCount = j := Option.some.inj (Option.some.inj hj)
        exact StandsFor.withConstants (standsFor_constant b.tape v) ht' rest
      | succ k =>
        have hrest : (Rebuild.constantIndices (first + 1) (b.pushed (.constant v)).tape.valueCount
            rest)[k]? = some (some j) := hj
        refine ih ht' (fun {k} hk => ?_) hrest
        rw [Nat.add_assoc, Nat.add_comm 1]
        exact (hnone (k := k + 1) hk).push ht _

namespace Mirrors

variable {b b' : Rebuild V} {new : Usage V}

/-- A result of a renamed usage stands for the result of the usage if that is not known. -/
theorem standsFor_renamed (h : Mirrors r known b)
    (hd : r.DerivesConstancy → u.IsOpen r (known.value? · = some ·) j)
    (hnew : Usage.Renames b.value? b.vector? u new) (hj : j < u.resultCount)
    (hu : ∀ v, u ≠ .constant v) : StandsFor r (b.tape.push new) (b.tape.valueCount + j) none := by
  refine standsFor_result (Tape.placed_push_last b.tape new) (hnew.resultCount_eq ▸ hj)
    (fun v hv => ?_) fun hderives => (hd hderives).renamed hnew fun i _ j hij v hv => ?_
  · subst hv
    cases hnew
    exact absurd rfl (hu v)
  · exact (h.value hij).constant v ((Tape.holdsConstant_push (h.value hij).lt).mp hv)

/-- The walk leaves a usage as it is, and its renamed form is recorded. -/
theorem copied (h : Mirrors r known b) (hvisit : known.visit r u = .ok (results, .copy))
    (hnew : Usage.Renames b.value? b.vector? u new) (hadmits : b.tape.Admits new) :
    Mirrors r (known ++ results : Array (Option V)) (b.replaced u new) := by
  have hvisited := visited_of_visit hvisit
  have hconstant (i : Nat) (_ : i ∈ u.reads) (j : Nat) (hij : b.value? i = some j) (v : V)
      (hv : b.tape.HoldsConstant j v) : known.value? i = some v := (h.value hij).constant v hv
  have hpushed := h.pushed hadmits
    (fun j hj => (hnew.exists_of_mem_reads hj).imp fun _ => And.right)
    ((isFolded_of_visit hvisit).renamed hnew hconstant)
  have hlength : results.length = u.resultCount := by
    cases hvisited <;> simp [Usage.resultCount]
  rw [Rebuild.replaced_eq]
  refine (hpushed.enterVector u _).enter (by simp [hlength]) fun {k j} hk => ?_
  obtain ⟨hlt, rfl⟩ : k < u.resultCount ∧ b.tape.valueCount + k = j := by
    simpa [List.getElem?_eq_some_iff] using hk
  rw [Rebuild.tape_enterVector]
  cases hvisited with
  | untouched =>
    have hnone : (List.replicate u.resultCount (none : Option V))[k]? = some none := by
      simp [hlt]
    rw [hnone]
    refine h.standsFor_renamed (fun hd => isOpen_of_visit hd hvisit hnone) hnew hlt fun v hv => ?_
    subst hv
    cases hvisit
  | constant v =>
    cases hnew
    obtain rfl := Nat.lt_one_iff.mp hlt
    exact standsFor_constant b.tape v

/-- The walk knows some of the results of a registered function. Its renamed form is recorded, and
constants behind it for the results that are known. -/
theorem foldedResults (h : Mirrors r known b)
    (hvisit : known.visit r u = .ok (results, .foldResults results))
    (hlength : results.length = u.resultCount) (hnew : Usage.Renames b.value? b.vector? u new)
    (hadmits : b.tape.Admits new) :
    Mirrors r (known ++ results : Array (Option V)) (((b.pushed new).withConstants results).enter
      (Rebuild.constantIndices b.tape.valueCount (b.tape.push new).valueCount results)) := by
  obtain ⟨family, hkind⟩ : ∃ family, u.kind = .foreign family := by
    cases visited_of_visit hvisit
    exact ⟨_, rfl⟩
  have hpushed : Mirrors r known (b.pushed new) := by
    refine h.pushed hadmits (fun j hj => (hnew.exists_of_mem_reads hj).imp fun _ => And.right) ?_
    cases hnew with
    | foreign => exact fun hplain => by cases hplain
    | _ => cases hkind
  refine (hpushed.withConstants _).enter (Rebuild.length_constantIndices ..).symm fun hk => ?_
  refine standsFor_constantIndices hpushed.wellFormed (fun {k} hnone => ?_) hk
  have hlt : k < u.resultCount := hlength ▸ (List.getElem?_eq_some_iff.mp hnone).1
  refine h.standsFor_renamed (fun hd => isOpen_of_visit hd hvisit hnone) hnew hlt fun v hv => ?_
  rw [hv] at hkind
  cases hkind

/-- The walk and the new tape get on by one usage. -/
theorem step (h : Mirrors r known b) (hvisit : known.visit r u = .ok (results, action))
    (hstep : Rebuild.Step b u action b') :
    Mirrors r (known ++ results : Array (Option V)) b' := by
  have hvisited := visited_of_visit hvisit
  cases hstep with
  | drop =>
    cases hvisited with
    | settled => exact (h.enterVector _ none).enter rfl fun hk => by cases hk
  | copy hnew hadmits => exact h.copied hvisit hnew hadmits
  | rebind => cases hvisited
  | @constants values hlength =>
    have hresults : results = values.map some := by
      cases hvisited with
      | computed => rfl
      | applied _ _ _ _ hall => exact restrict_of_all (by simp) hall
    subst hresults
    refine (h.withConstants _).enter (Rebuild.length_constantIndices ..).symm fun hk => ?_
    exact standsFor_constantIndices h.wellFormed (fun hnone => by simp at hnone) hk
  | @foldResults values new hlength hnew hadmits =>
    obtain rfl : results = values := by
      cases hvisited
      rfl
    exact h.foldedResults hvisit hlength hnew hadmits
  | @reuse target j hj =>
    cases hvisited with
    | chosen =>
      refine h.enter rfl fun {k j'} hk => ?_
      cases k with
      | zero =>
        obtain rfl : j = j' := Option.some.inj (Option.some.inj hk)
        exact h.value hj
      | succ k => cases hk
  | sum => cases hvisited

/-- The walk over all usages. -/
theorem run {us : List (Usage V)} {actions : List (Action V)} (h : Mirrors r known b)
    (hwalk : walk r known us = .ok actions) (hrun : b.run? (us.zip actions) = some b') :
    ∃ known', Mirrors r known' b' := by
  induction us generalizing known actions b with
  | nil =>
    obtain rfl := Option.some.inj hrun
    exact ⟨known, h⟩
  | cons u us ih =>
    simp only [walk, bind_eq_ok_iff] at hwalk
    obtain ⟨⟨results, action⟩, hvisit, actions', hrest, hactions⟩ := hwalk
    obtain rfl := Except.ok.inj hactions
    obtain ⟨b₁, hstep, hrun⟩ := Rebuild.run?_cons_eq_some_iff.mp hrun
    exact ih (h.step hvisit hstep) hrest hrun

end Mirrors

theorem mirrors_start (r : Registry V) (t : Tape V) : Mirrors r t.firstKnown (.start t) where
  wellFormed := .new _ _
  size := by simp [Tape.firstKnown, Rebuild.start]
  value {i j} hij := by
    obtain ⟨hlt, rfl⟩ := Rebuild.value?_start.mp hij
    have honly {k : Nat} {p : Place} {u : Usage V}
        (hk : (Rebuild.start t).tape.placed[k]? = some (p, u)) :
        p.first = t.indCount ∧ u = .constant Scalar.zero := by
      cases k with
      | zero =>
        obtain ⟨rfl, rfl⟩ := Prod.mk.inj (Option.some.inj hk)
        exact ⟨rfl, rfl⟩
      | succ k => cases hk
    refine ⟨hlt, fun v hconstant => ?_, fun _ {k p u m} hk _ _ => ?_⟩
    · obtain ⟨k, p, hk, hfirst⟩ := hconstant
      obtain ⟨hzero, hv⟩ := honly hk
      obtain rfl : i = t.indCount := hfirst.symm.trans hzero
      obtain rfl := Usage.constant.inj hv
      rw [Known.value?, Tape.firstKnown, Array.getElem?_push, if_pos Array.size_replicate.symm]
      rfl
    · obtain ⟨-, rfl⟩ := honly hk
      trivial
  reads u hu j hj := by
    obtain rfl := List.mem_singleton.mp hu
    cases hj
  folded u hu := by
    obtain rfl := List.mem_singleton.mp hu
    exact fun hplain => by cases hplain

end Known

namespace Tape

variable [Scalar V] {t t' : Tape V} {r : Registry V}

theorem mirrors_of_foldConstants (h : t.foldConstants r = .ok t') :
    ∃ known b, Known.Mirrors r known b ∧ b.finish? t.dependents = some t' := by
  obtain ⟨actions, hwalk, hrebuild⟩ := bind_eq_ok_iff.mp h
  obtain ⟨-, b, hrun, hfinish⟩ := rebuild_eq_ok_iff.mp hrebuild
  obtain ⟨known, hmirrors⟩ := (Known.mirrors_start r t).run hwalk hrun
  exact ⟨known, b, hmirrors, hfinish⟩

/-- Folding leaves nothing to fold, where constancy is drawn from dependence. -/
theorem folded_of_foldConstants (hd : r.DerivesConstancy) (h : t.foldConstants r = .ok t') :
    t'.Folded r := by
  obtain ⟨known, b, hmirrors, hfinish⟩ := mirrors_of_foldConstants h
  obtain ⟨ds, hds, hset⟩ := Rebuild.finish?_eq_some_iff.mp hfinish
  obtain ⟨-, rfl⟩ := setDependents?_eq_some_iff.mp hset
  refine ⟨hmirrors.folded, fun {k p u j} hk hj hread => ?_⟩
  obtain ⟨i, hi⟩ : ∃ i, b.value? i = some (p.first + j) := by
    rcases hread with hdep | ⟨w, hw, hmem⟩
    · exact (exists_of_mem_mapM hds hdep).imp fun _ => And.right
    · exact hmirrors.reads w hw _ hmem
  exact (hmirrors.value hi).isOpen hd hk hj rfl

/-- Folding leaves nothing to fold. On the new tape every unary, binary, discrete and summing usage
has an operand that is not a constant, so no empty sum is left; no select compares two constants;
and where a comparison has two constants for operands, it does not hold of them. -/
theorem foldConstants_leaves_none (h : t.foldConstants r = .ok t') :
    (∀ u ∈ t'.usages, u.isPlain = true → ∃ i ∈ u.args, ¬ t'.IsConstant i) ∧
    (∀ cmp x y a b, .select cmp x y a b ∈ t'.usages → ¬ (t'.IsConstant x ∧ t'.IsConstant y)) ∧
    ∀ cmp x y v w, .compare cmp x y ∈ t'.usages → t'.HoldsConstant x v → t'.HoldsConstant y w →
      cmp.holds v w = false := by
  obtain ⟨known, b, hmirrors, hfinish⟩ := mirrors_of_foldConstants h
  obtain ⟨ds, -, hset⟩ := Rebuild.finish?_eq_some_iff.mp hfinish
  obtain ⟨-, rfl⟩ := setDependents?_eq_some_iff.mp hset
  refine ⟨fun u hu hplain => ?_, fun cmp x y a b hu ⟨⟨v, hv⟩, w, hw⟩ => ?_,
    fun cmp x y v w hu hv hw => ?_⟩
  · obtain ⟨i, hi, hnot⟩ := (hmirrors.folded u hu).exists_not_constant hplain
    exact ⟨i, hi, fun ⟨v, hv⟩ => hnot v hv⟩
  · exact hmirrors.folded _ hu v w hv hw
  · exact hmirrors.folded _ hu v w hv hw

/-- An empty sum, a select and a comparison between constants, and one with an independent. -/
def foldable : Tape Float :=
  let constants := ((new 1 {}).push (.constant 2)).push (.sum [] [])
  let chosen := (constants.push (.select .always 2 3 0 2)).push (.binary .add 4 3)
  { (chosen.push (.compare .always 2 3)).push (.compare .lt 0 2) with deps := some [5] }

/-- The empty sum is a constant, the select its branch, and one comparison is left. -/
def foldedOnce : Tape Float :=
  let constants := ((new 1 {}).push (.constant 2)).push (.constant Scalar.zero)
  { (constants.push (.binary .add 0 3)).push (.compare .lt 0 2) with deps := some [4] }

theorem foldConstants_leaves_none_foldable : foldable.Reachable ∧
    foldable.foldConstants {} = .ok foldedOnce ∧
    (∀ u ∈ foldedOnce.usages, u.isPlain = true → ∃ i ∈ u.args, ¬ foldedOnce.IsConstant i) ∧
    (∀ cmp x y a b, .select cmp x y a b ∈ foldedOnce.usages →
      ¬ (foldedOnce.IsConstant x ∧ foldedOnce.IsConstant y)) ∧
    ∀ cmp x y v w, .compare cmp x y ∈ foldedOnce.usages → foldedOnce.HoldsConstant x v →
      foldedOnce.HoldsConstant y w → cmp.holds v w = false := by
  have hreachable : foldable.Reachable :=
    ((((((Reachable.new 1 {}).push (by decide)).push (by decide)).push (by decide)).push
      (by decide)).push (by decide)).push (by decide) |>.withDependents rfl (by decide)
  have hfold : foldable.foldConstants {} = .ok foldedOnce := by with_unfolding_all rfl
  exact ⟨hreachable, hfold, foldConstants_leaves_none hfold⟩

end Tape

end OpTape
