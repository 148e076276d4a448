import OpTape.Rebuild
import OpTape.Proofs.Renaming
import OpTape.Proofs.WellFormed
/-
  What the actions of a pass do to a tape under construction. The tape only grows, by usages
  that it admits, so whatever a pass decides the rebuilt tape is in order
  (`rebuild_wellFormed`). A pass fails only where something that was dropped is still read:
  `Bounded` keeps the tables within the new tape, and then an action succeeds as soon as all
  that it looks up is there.
-/
namespace OpTape

namespace Rebuild

variable {V : Type}

/-- The tape of `s` with one more usage, the tables as they were. -/
def pushed (s : Rebuild V) (u : Usage V) : Rebuild V := { s with tape := s.tape.push u }

/-- `new` was recorded in the place of `u`. -/
def replaced (s : Rebuild V) (u new : Usage V) : Rebuild V :=
  ((s.enterVector u (some s.tape.vectorCount)).pushed new).enter
    ((List.range' s.tape.valueCount u.resultCount).map some)

/-- What stands for the results of a usage when `first` is the first of its results on the new
tape, and the values of a list become constants from index `next` on. -/
def constantIndices (first next : Nat) : List (Option V) → List (Option Nat)
  | [] => []
  | none :: rest => some first :: constantIndices (first + 1) next rest
  | some _ :: rest => some next :: constantIndices (first + 1) (next + 1) rest

/-- The tape of `s` with the values of a list recorded as constants. -/
def withConstants (s : Rebuild V) : List (Option V) → Rebuild V
  | [] => s
  | none :: rest => s.withConstants rest
  | some v :: rest => (s.pushed (.constant v)).withConstants rest

/-! ## Tables -/

@[simp] theorem tape_pushed (s : Rebuild V) (u : Usage V) :
    (s.pushed u).tape = s.tape.push u := rfl

@[simp] theorem values_pushed (s : Rebuild V) (u : Usage V) :
    (s.pushed u).values = s.values := rfl

@[simp] theorem vectors_pushed (s : Rebuild V) (u : Usage V) :
    (s.pushed u).vectors = s.vectors := rfl

@[simp] theorem tape_enter (s : Rebuild V) (rs : List (Option Nat)) :
    (s.enter rs).tape = s.tape := rfl

@[simp] theorem vectors_enter (s : Rebuild V) (rs : List (Option Nat)) :
    (s.enter rs).vectors = s.vectors := rfl

@[simp] theorem values_enter (s : Rebuild V) (rs : List (Option Nat)) :
    (s.enter rs).values = s.values ++ rs.toArray :=
  append_list_eq _ _

@[simp] theorem tape_enterVector (s : Rebuild V) (u : Usage V) (w : Option Nat) :
    (s.enterVector u w).tape = s.tape := by
  unfold enterVector
  split <;> rfl

@[simp] theorem values_enterVector (s : Rebuild V) (u : Usage V) (w : Option Nat) :
    (s.enterVector u w).values = s.values := by
  unfold enterVector
  split <;> rfl

@[simp] theorem vectors_enterVector (s : Rebuild V) (u : Usage V) (w : Option Nat) :
    (s.enterVector u w).vectors = if u.startsVector then s.vectors.push w else s.vectors := by
  unfold enterVector
  split <;> rfl

theorem enter_nil (s : Rebuild V) : s.enter [] = s := by
  cases s
  simp [enter]

theorem enterVector_of_false (s : Rebuild V) {u : Usage V} (hu : u.startsVector = false)
    (w : Option Nat) : s.enterVector u w = s := by
  simp [enterVector, hu]

theorem replaced_of_counts (s : Rebuild V) {u : Usage V} (hcount : u.resultCount = 0)
    (hstarts : u.startsVector = false) (new : Usage V) : s.replaced u new = s.pushed new := by
  rw [replaced, enterVector_of_false s hstarts, hcount, List.range'_zero, List.map_nil, enter_nil]

theorem value?_eq_some_iff {s : Rebuild V} {i j : Nat} :
    s.value? i = some j ↔ s.values[i]? = some (some j) := by
  simp [value?, Option.join_eq_some_iff]

theorem vector?_eq_some_iff {s : Rebuild V} {w w' : Nat} :
    s.vector? w = some w' ↔ s.vectors[w]? = some (some w') := by
  simp [vector?, Option.join_eq_some_iff]

theorem lt_of_value? {s : Rebuild V} {i j : Nat} (h : s.value? i = some j) :
    i < s.values.size :=
  (Array.getElem?_eq_some_iff.mp (value?_eq_some_iff.mp h)).1

theorem lt_of_vector? {s : Rebuild V} {w w' : Nat} (h : s.vector? w = some w') :
    w < s.vectors.size :=
  (Array.getElem?_eq_some_iff.mp (vector?_eq_some_iff.mp h)).1

/-- A value of the longer table is an old one or the next result with an entry. -/
theorem value?_enter_cases {s : Rebuild V} {rs : List (Option Nat)} {i j : Nat}
    (h : (s.enter rs).value? i = some j) :
    s.value? i = some j ∨ ∃ k, i = s.values.size + k ∧ rs[k]? = some (some j) := by
  rw [value?_eq_some_iff, values_enter, Array.getElem?_append] at h
  split at h
  · exact Or.inl (value?_eq_some_iff.mpr h)
  · right
    refine ⟨i - s.values.size, by omega, ?_⟩
    simpa using h

theorem value?_enter_of_lt {s : Rebuild V} {rs : List (Option Nat)} {i : Nat}
    (h : i < s.values.size) : (s.enter rs).value? i = s.value? i := by
  unfold value?
  rw [values_enter, Array.getElem?_append_left h]

theorem value?_enter_add (s : Rebuild V) (rs : List (Option Nat)) (k : Nat) :
    (s.enter rs).value? (s.values.size + k) = rs[k]?.join := by
  unfold value?
  rw [values_enter, Array.getElem?_append_right (by omega)]
  simp

theorem value?_enterVector (s : Rebuild V) (u : Usage V) (w : Option Nat) (i : Nat) :
    (s.enterVector u w).value? i = s.value? i := by
  rw [value?, values_enterVector]
  rfl

/-- A vector of the table is an old one or the one that is started. -/
theorem vector?_enterVector_cases {s : Rebuild V} {u : Usage V} {o : Option Nat} {w w' : Nat}
    (h : (s.enterVector u o).vector? w = some w') :
    s.vector? w = some w' ∨ u.startsVector = true ∧ w = s.vectors.size ∧ w' ∈ o := by
  rw [vector?_eq_some_iff, vectors_enterVector] at h
  split at h
  · rename_i hstarts
    rw [Array.getElem?_push] at h
    split at h
    · rename_i heq
      exact Or.inr ⟨hstarts, heq, Option.some.inj h⟩
    · exact Or.inl (vector?_eq_some_iff.mpr h)
  · exact Or.inl (vector?_eq_some_iff.mpr h)

/-! ## Actions -/

theorem append?_eq_some_iff {s s' : Rebuild V} {u : Usage V} :
    s.append? u = some s' ↔ s.tape.Admits u ∧ s.pushed u = s' := by
  simp only [append?, Option.map_eq_some_iff, Tape.append?_eq_some_iff]
  constructor
  · rintro ⟨t, ⟨hadmits, rfl⟩, rfl⟩
    exact ⟨hadmits, rfl⟩
  · rintro ⟨hadmits, rfl⟩
    exact ⟨_, ⟨hadmits, rfl⟩, rfl⟩

theorem carry?_eq_some_iff {s : Rebuild V} {u u' : Usage V} :
    s.carry? u = some u' ↔ Usage.Renames s.value? s.vector? u u' :=
  Usage.rename?_eq_some_iff

theorem replace?_eq_some_iff {s s' : Rebuild V} {u new : Usage V} :
    s.replace? u new = some s' ↔ s.tape.Admits new ∧ s.replaced u new = s' := by
  simp only [replace?, Option.bind_eq_bind, Option.bind_eq_some_iff, append?_eq_some_iff,
    tape_enterVector, Option.pure_def, Option.some.injEq]
  constructor
  · rintro ⟨s₁, ⟨hadmits, rfl⟩, rfl⟩
    exact ⟨hadmits, rfl⟩
  · rintro ⟨hadmits, rfl⟩
    exact ⟨_, ⟨hadmits, rfl⟩, rfl⟩

theorem admits_constant (t : Tape V) (v : V) : t.Admits (.constant v) := by
  constructor <;> simp [Usage.reads, Usage.args, Usage.initials, Usage.vector?]

/-- Constants can always be recorded. -/
theorem constants?_eq (s : Rebuild V) (first : Nat) (values : List (Option V)) :
    s.constants? first values
      = some (constantIndices first s.tape.valueCount values, s.withConstants values) := by
  induction values generalizing s first with
  | nil => rfl
  | cons v rest ih =>
    cases v with
    | none => simp [constants?, constantIndices, withConstants, ih]
    | some v =>
      have hc : s.constant? v = some (s.tape.valueCount, s.pushed (.constant v)) := by
        rw [constant?, append?_eq_some_iff.mpr ⟨admits_constant s.tape v, rfl⟩]
        rfl
      simp only [constants?, hc, ih, constantIndices, withConstants, Option.bind_eq_bind,
        Option.bind_some]
      rfl

theorem values_withConstants (s : Rebuild V) (values : List (Option V)) :
    (s.withConstants values).values = s.values := by
  induction values generalizing s with
  | nil => rfl
  | cons v rest ih => cases v <;> simp [withConstants, ih]

theorem vectors_withConstants (s : Rebuild V) (values : List (Option V)) :
    (s.withConstants values).vectors = s.vectors := by
  induction values generalizing s with
  | nil => rfl
  | cons v rest ih => cases v <;> simp [withConstants, ih]

theorem grows_withConstants (s : Rebuild V) (values : List (Option V)) :
    s.tape.Grows (s.withConstants values).tape := by
  induction values generalizing s with
  | nil => exact .refl
  | cons v rest ih =>
    cases v with
    | none => exact ih s
    | some v =>
      have hpush : s.tape.Grows (s.pushed (.constant v)).tape :=
        Tape.Grows.refl.push (admits_constant s.tape v)
      exact hpush.trans (ih _)

theorem length_constantIndices (first next : Nat) (values : List (Option V)) :
    (constantIndices first next values).length = values.length := by
  induction values generalizing first next with
  | nil => rfl
  | cons v rest ih => cases v <;> simp [constantIndices, ih]

/-- The successful steps, action by action. -/
inductive Step (s : Rebuild V) (u : Usage V) : Action V → Rebuild V → Prop
  | drop : Step s u .drop ((s.enterVector u none).enter (List.replicate u.resultCount none))
  | copy {new : Usage V} (hnew : Usage.Renames s.value? s.vector? u new)
      (hadmits : s.tape.Admits new) : Step s u .copy (s.replaced u new)
  | rebind {needed : List Bool} {new : Usage V} (hnew : s.carryNeeded? needed u = some new)
      (hadmits : s.tape.Admits new) : Step s u (.rebind needed) (s.replaced u new)
  | constants {values : List V} (hlength : values.length = u.resultCount) :
      Step s u (.constants values) ((s.withConstants (values.map some)).enter
        (constantIndices 0 s.tape.valueCount (values.map some)))
  | foldResults {values : List (Option V)} {new : Usage V}
      (hlength : values.length = u.resultCount)
      (hnew : Usage.Renames s.value? s.vector? u new) (hadmits : s.tape.Admits new) :
      Step s u (.foldResults values) (((s.pushed new).withConstants values).enter
        (constantIndices s.tape.valueCount (s.tape.push new).valueCount values))
  | reuse {target j : Nat} (hj : s.value? target = some j) :
      Step s u (.reuse target) (s.enter [some j])
  | sum {add sub add' sub' : List Nat} (hadd : add.mapM s.value? = some add')
      (hsub : sub.mapM s.value? = some sub') (hadmits : s.tape.Admits (.sum add' sub')) :
      Step s u (.sum add sub) ((s.pushed (.sum add' sub')).enter [some s.tape.valueCount])

theorem step?_eq_some_iff {s s' : Rebuild V} {u : Usage V} {action : Action V} :
    s.step? u action = some s' ↔ Step s u action s' := by
  constructor
  · intro h
    cases action with
    | drop =>
      obtain rfl := Option.some.inj h
      exact .drop
    | copy =>
      simp only [step?, Option.bind_eq_bind, Option.bind_eq_some_iff, carry?_eq_some_iff,
        replace?_eq_some_iff] at h
      obtain ⟨new, hnew, hadmits, rfl⟩ := h
      exact .copy hnew hadmits
    | rebind needed =>
      simp only [step?, Option.bind_eq_bind, Option.bind_eq_some_iff, replace?_eq_some_iff] at h
      obtain ⟨new, hnew, hadmits, rfl⟩ := h
      exact .rebind hnew hadmits
    | constants values =>
      obtain ⟨hlength, h⟩ := guard_bind_eq_some_iff.mp h
      simp only [constants?_eq, Option.bind_eq_bind, Option.bind_some, Option.pure_def,
        Option.some.injEq] at h
      subst h
      exact .constants hlength
    | foldResults values =>
      obtain ⟨hlength, h⟩ := guard_bind_eq_some_iff.mp h
      simp only [constants?_eq, Option.bind_eq_bind, Option.bind_eq_some_iff, carry?_eq_some_iff,
        append?_eq_some_iff, Option.bind_some, Option.pure_def, Option.some.injEq] at h
      obtain ⟨new, hnew, _, ⟨hadmits, rfl⟩, rfl⟩ := h
      exact .foldResults hlength hnew hadmits
    | reuse target =>
      simp only [step?, Option.bind_eq_bind, Option.bind_eq_some_iff, Option.pure_def,
        Option.some.injEq] at h
      obtain ⟨j, hj, rfl⟩ := h
      exact .reuse hj
    | sum add sub =>
      simp only [step?, Option.bind_eq_bind, Option.bind_eq_some_iff, append?_eq_some_iff,
        Option.pure_def, Option.some.injEq] at h
      obtain ⟨_, hadd, _, hsub, _, ⟨hadmits, rfl⟩, rfl⟩ := h
      exact .sum hadd hsub hadmits
  · intro h
    cases h with
    | drop => rfl
    | copy hnew hadmits =>
      simp [step?, carry?_eq_some_iff.mpr hnew, replace?_eq_some_iff, hadmits]
    | rebind hnew hadmits => simp [step?, hnew, replace?_eq_some_iff, hadmits]
    | constants hlength =>
      refine guard_bind_eq_some_iff.mpr ⟨hlength, ?_⟩
      simp only [constants?_eq]
      rfl
    | foldResults hlength hnew hadmits =>
      refine guard_bind_eq_some_iff.mpr ⟨hlength, ?_⟩
      simp only [carry?_eq_some_iff.mpr hnew, Option.bind_eq_bind, Option.bind_some,
        append?_eq_some_iff.mpr ⟨hadmits, rfl⟩, constants?_eq]
      rfl
    | reuse hj => simp [step?, hj]
    | sum hadd hsub hadmits =>
      simp [step?, hadd, hsub, append?_eq_some_iff.mpr ⟨hadmits, rfl⟩]

/-! ## Runs -/

theorem Step.grows {s s' : Rebuild V} {u : Usage V} {action : Action V}
    (h : Step s u action s') : s.tape.Grows s'.tape := by
  have hreplaced {new : Usage V} (hadmits : s.tape.Admits new) :
      s.tape.Grows (s.replaced u new).tape := by
    rw [replaced, tape_enter, tape_pushed, tape_enterVector]
    exact Tape.Grows.refl.push hadmits
  cases h with
  | drop => rw [tape_enter, tape_enterVector]; exact .refl
  | copy _ hadmits => exact hreplaced hadmits
  | rebind _ hadmits => exact hreplaced hadmits
  | constants => exact grows_withConstants s _
  | foldResults _ _ hadmits =>
    exact (Tape.Grows.refl.push hadmits).trans (grows_withConstants (s.pushed _) _)
  | reuse => exact .refl
  | sum _ _ hadmits => exact Tape.Grows.refl.push hadmits

/-- The tables name values and vectors of the new tape. -/
structure Bounded (s : Rebuild V) : Prop where
  value : ∀ {i j : Nat}, s.value? i = some j → j < s.tape.valueCount
  vector : ∀ {w w' : Nat}, s.vector? w = some w' → w' < s.tape.vectorCount

theorem Bounded.pushed {s : Rebuild V} (hs : s.Bounded) (u : Usage V) :
    (s.pushed u).Bounded where
  value h := Nat.lt_of_lt_of_le (hs.value h) (Nat.le_add_right _ _)
  vector h := Nat.lt_of_lt_of_le (hs.vector h) (Nat.le_add_right _ _)

theorem Bounded.withConstants {s : Rebuild V} (hs : s.Bounded) (values : List (Option V)) :
    (s.withConstants values).Bounded := by
  induction values generalizing s with
  | nil => exact hs
  | cons v rest ih =>
    cases v with
    | none => exact ih hs
    | some v => exact ih (hs.pushed _)

theorem Bounded.enter {s : Rebuild V} (hs : s.Bounded) {rs : List (Option Nat)}
    (hrs : ∀ j, some j ∈ rs → j < s.tape.valueCount) : (s.enter rs).Bounded where
  value h := by
    rcases value?_enter_cases h with h | ⟨k, -, hk⟩
    · exact hs.value h
    · exact hrs _ (List.mem_of_getElem? hk)
  vector h := hs.vector h

theorem Bounded.enterVector {s : Rebuild V} (hs : s.Bounded) {u : Usage V} {w : Option Nat}
    (hw : u.startsVector → ∀ w' ∈ w, w' < s.tape.vectorCount) :
    (s.enterVector u w).Bounded := by
  refine ⟨fun h => ?_, fun h => ?_⟩
  · rw [value?_enterVector] at h
    rw [tape_enterVector]
    exact hs.value h
  · rw [tape_enterVector]
    rcases vector?_enterVector_cases h with h | ⟨hstarts, -, h⟩
    · exact hs.vector h
    · exact hw hstarts _ h

theorem lt_of_mem_constantIndices {first next : Nat} {values : List (Option V)} {j : Nat}
    (h : some j ∈ constantIndices first next values) :
    j < first + values.length ∨ j < next + (values.filterMap id).length := by
  induction values generalizing first next with
  | nil => simp [constantIndices] at h
  | cons v rest ih =>
    cases v with
    | none =>
      simp only [constantIndices, List.mem_cons, Option.some.injEq] at h
      show _ < first + (rest.length + 1) ∨ _ < next + (rest.filterMap id).length
      rcases h with rfl | h
      · omega
      · have := ih h
        omega
    | some v =>
      simp only [constantIndices, List.mem_cons, Option.some.injEq] at h
      show _ < first + (rest.length + 1) ∨ _ < next + ((rest.filterMap id).length + 1)
      rcases h with rfl | h
      · omega
      · have := ih h
        omega

theorem valueCount_withConstants (s : Rebuild V) (values : List (Option V)) :
    (s.withConstants values).tape.valueCount
      = s.tape.valueCount + (values.filterMap id).length := by
  induction values generalizing s with
  | nil => rfl
  | cons v rest ih =>
    cases v with
    | none => simp [withConstants, ih]
    | some v =>
      rw [withConstants, ih, tape_pushed, Tape.valueCount_push]
      show s.tape.valueCount + 1 + (rest.filterMap id).length
        = s.tape.valueCount + ((rest.filterMap id).length + 1)
      omega

theorem replaced_eq (s : Rebuild V) (u new : Usage V) :
    s.replaced u new = ((s.pushed new).enterVector u (some s.tape.vectorCount)).enter
      ((List.range' s.tape.valueCount u.resultCount).map some) := by
  unfold replaced enterVector
  split <;> rfl

theorem Bounded.replaced {s : Rebuild V} (hs : s.Bounded) {u new : Usage V}
    (hresults : new.resultCount = u.resultCount) (hstarts : new.startsVector = u.startsVector) :
    (s.replaced u new).Bounded := by
  rw [replaced_eq]
  refine ((hs.pushed new).enterVector fun hu w' hw' => ?_).enter fun j hj => ?_
  · obtain rfl := Option.some.inj hw'
    show s.tape.vectorCount < s.tape.vectorCount + if new.startsVector then 1 else 0
    rw [hstarts, if_pos hu]
    omega
  · rw [tape_enterVector, tape_pushed, Tape.valueCount_push, hresults]
    have hmem : j ∈ List.range' s.tape.valueCount u.resultCount := by simpa using hj
    have := List.mem_range'_1.mp hmem
    omega

theorem carryNeeded?_foreign_eq_some_iff {s : Rebuild V} {needed : List Bool} {family : Family}
    {id callId n : Nat} {inputs : List Nat} {new : Usage V} :
    s.carryNeeded? needed (.foreign family id callId n inputs) = some new ↔
      needed.length = inputs.length ∧
        ∃ inputs', (needed.zip inputs).mapM (fun (flag, i) => s.input? flag i) = some inputs' ∧
          .foreign family id callId n inputs' = new := by
  refine guard_bind_eq_some_iff.trans ?_
  simp only [Option.bind_eq_bind, Option.bind_eq_some_iff, Option.pure_def, Option.some.injEq]

theorem carryNeeded?_counts {s : Rebuild V} {needed : List Bool} {u new : Usage V}
    (h : s.carryNeeded? needed u = some new) :
    new.resultCount = u.resultCount ∧ new.startsVector = u.startsVector := by
  cases u with
  | foreign family id callId n inputs =>
    obtain ⟨-, _, -, rfl⟩ := carryNeeded?_foreign_eq_some_iff.mp h
    exact ⟨rfl, rfl⟩
  | _ =>
    have hnew := carry?_eq_some_iff.mp h
    exact ⟨hnew.resultCount_eq, hnew.startsVector_eq⟩

/-- No action enters a name that the new tape does not have. -/
theorem Step.bounded {s s' : Rebuild V} {u : Usage V} {action : Action V}
    (h : Step s u action s') (hs : s.Bounded) : s'.Bounded := by
  cases h with
  | drop =>
    refine (hs.enterVector fun _ w' hw' => by simp at hw').enter fun j hj => ?_
    simp at hj
  | copy hnew _ => exact hs.replaced hnew.resultCount_eq hnew.startsVector_eq
  | rebind hnew _ =>
    have hcounts := carryNeeded?_counts hnew
    exact hs.replaced hcounts.1 hcounts.2
  | constants hlength =>
    refine (hs.withConstants _).enter fun j hj => ?_
    have := lt_of_mem_constantIndices hj
    rw [valueCount_withConstants]
    simp at this ⊢
    omega
  | @foldResults values new hlength hnew _ =>
    refine ((hs.pushed new).withConstants _).enter fun j hj => ?_
    have := lt_of_mem_constantIndices hj
    have := hnew.resultCount_eq
    rw [valueCount_withConstants, tape_pushed]
    rw [Tape.valueCount_push] at *
    omega
  | reuse hj =>
    refine hs.enter fun j' hj' => ?_
    obtain rfl : j' = _ := by simpa using hj'
    exact hs.value hj
  | sum =>
    refine (hs.pushed _).enter fun j hj => ?_
    obtain rfl : j = s.tape.valueCount := by simpa using hj
    exact Nat.lt_succ_self _

theorem run?_cons_eq_some_iff {s s' : Rebuild V} {u : Usage V} {action : Action V}
    {plan : List (Usage V × Action V)} :
    s.run? ((u, action) :: plan) = some s' ↔
      ∃ s₁, Step s u action s₁ ∧ s₁.run? plan = some s' := by
  simp only [run?, List.foldlM_cons, Option.bind_eq_bind, Option.bind_eq_some_iff,
    step?_eq_some_iff]

theorem grows_of_run? {s s' : Rebuild V} {plan : List (Usage V × Action V)}
    (h : s.run? plan = some s') : s.tape.Grows s'.tape := by
  induction plan generalizing s with
  | nil =>
    obtain rfl := Option.some.inj h
    exact .refl
  | cons step plan ih =>
    obtain ⟨s₁, hstep, hrun⟩ := run?_cons_eq_some_iff.mp h
    exact hstep.grows.trans (ih hrun)

theorem value?_start {t : Tape V} {i j : Nat} :
    (start t).value? i = some j ↔ i < t.indCount + 1 ∧ i = j := by
  rw [value?_eq_some_iff]
  simp [start, Array.getElem?_eq_some_iff]

theorem bounded_start (t : Tape V) : (start t).Bounded where
  value h := by
    obtain ⟨hlt, rfl⟩ := value?_start.mp h
    exact hlt
  vector h := by simp [start, vector?] at h

/-- A run succeeds when each of its steps can be taken. -/
theorem exists_run (J : List (Usage V × Action V) → Rebuild V → Prop)
    (hstep : ∀ {u action plan s}, J ((u, action) :: plan) s → s.Bounded →
      ∃ s', Step s u action s' ∧ J plan s')
    {plan : List (Usage V × Action V)} {s : Rebuild V} (hs : s.Bounded) (hJ : J plan s) :
    ∃ s', s.run? plan = some s' ∧ s'.Bounded ∧ J [] s' := by
  induction plan generalizing s with
  | nil => exact ⟨s, rfl, hs, hJ⟩
  | cons step plan ih =>
    obtain ⟨s₁, h₁, hJ₁⟩ := hstep hJ hs
    obtain ⟨s', hrun, hs', hJ'⟩ := ih (h₁.bounded hs) hJ₁
    exact ⟨s', run?_cons_eq_some_iff.mpr ⟨s₁, h₁, hrun⟩, hs', hJ'⟩

theorem finish?_eq_some_iff {s : Rebuild V} {dependents : List Nat} {t : Tape V} :
    s.finish? dependents = some t ↔ ∃ ds, dependents.mapM s.value? = some ds ∧
      s.tape.setDependents? ds = some t := by
  simp only [finish?, Option.bind_eq_bind, Option.bind_eq_some_iff]

/-- A usage can be carried over when all that it reads is there. -/
theorem exists_carried {s : Rebuild V} (hs : s.Bounded) {u : Usage V}
    (hvalue : ∀ i ∈ u.reads, ∃ j, s.value? i = some j)
    (hvector : ∀ w ∈ u.vector?, ∃ w', s.vector? w = some w') :
    ∃ new, Usage.Renames s.value? s.vector? u new ∧ s.tape.Admits new := by
  obtain ⟨new, hnew⟩ := Usage.exists_renames hvalue hvector
  refine ⟨new, hnew, fun j hj => ?_, fun w' hw' => ?_⟩
  · obtain ⟨i, -, hij⟩ := hnew.exists_of_mem_reads hj
    exact hs.value hij
  · obtain ⟨w, -, hww'⟩ := hnew.exists_of_mem_vector hw'
    exact hs.vector hww'

end Rebuild

namespace Tape

variable {V : Type}

theorem rebuild_eq_ok_iff {t t' : Tape V} {actions : List (Action V)} :
    t.rebuild actions = .ok t' ↔ actions.length = t.body.size ∧
      ∃ s, (Rebuild.start t).run? (t.body.toList.zip actions) = some s ∧
        s.finish? t.dependents = some t' := by
  refine (result_eq_ok_iff _).trans ?_
  refine guard_bind_eq_some_iff.trans ?_
  simp only [Option.bind_eq_bind, Option.bind_eq_some_iff]

/-- Whatever the actions, a rebuilt tape is in order. -/
theorem rebuild_wellFormed {t t' : Tape V} {actions : List (Action V)}
    (h : t.rebuild actions = .ok t') : t'.WellFormed := by
  obtain ⟨-, s, hrun, hfinish⟩ := rebuild_eq_ok_iff.mp h
  obtain ⟨ds, -, hset⟩ := Rebuild.finish?_eq_some_iff.mp hfinish
  exact ((Rebuild.grows_of_run? hrun).wellFormed (.new _ _)).setDependents hset

/-- A rebuilt tape has the independents and the options of the old one. -/
theorem rebuild_inherits {t t' : Tape V} {actions : List (Action V)}
    (h : t.rebuild actions = .ok t') : t'.indCount = t.indCount ∧ t'.options = t.options := by
  obtain ⟨-, s, hrun, hfinish⟩ := rebuild_eq_ok_iff.mp h
  obtain ⟨ds, -, hset⟩ := Rebuild.finish?_eq_some_iff.mp hfinish
  obtain ⟨-, rfl⟩ := setDependents?_eq_some_iff.mp hset
  have hgrows := Rebuild.grows_of_run? hrun
  exact ⟨hgrows.indCount_eq, hgrows.options_eq⟩

/-- The dependents of a rebuilt tape are set. -/
theorem rebuild_deps {t t' : Tape V} {actions : List (Action V)}
    (h : t.rebuild actions = .ok t') : ∃ ds, t'.deps = some ds := by
  obtain ⟨-, s, -, hfinish⟩ := rebuild_eq_ok_iff.mp h
  obtain ⟨ds, -, hset⟩ := Rebuild.finish?_eq_some_iff.mp hfinish
  obtain ⟨-, rfl⟩ := setDependents?_eq_some_iff.mp hset
  exact ⟨ds, rfl⟩

/-- Rebuilding succeeds when each action can be carried out and no dependent was dropped. -/
theorem exists_rebuild {t : Tape V} {actions : List (Action V)}
    (J : List (Usage V × Action V) → Rebuild V → Prop)
    (hlength : actions.length = t.body.size)
    (hstart : J (t.body.toList.zip actions) (.start t))
    (hstep : ∀ {u action plan s}, J ((u, action) :: plan) s → s.Bounded →
      ∃ s', Rebuild.Step s u action s' ∧ J plan s')
    (hlast : ∀ {s}, J [] s → ∀ i ∈ t.dependents, ∃ j, s.value? i = some j) :
    ∃ t', t.rebuild actions = .ok t' := by
  obtain ⟨s, hrun, hs, hJ⟩ := Rebuild.exists_run J hstep (Rebuild.bounded_start t) hstart
  obtain ⟨ds, hds⟩ := exists_mapM_some (hlast hJ)
  have hset : s.tape.setDependents? ds = some { s.tape with deps := some ds } := by
    refine setDependents?_eq_some_iff.mpr ⟨⟨(Rebuild.grows_of_run? hrun).deps_eq, ?_⟩, rfl⟩
    intro j hj
    obtain ⟨i, -, hij⟩ := exists_of_mem_mapM hds hj
    exact hs.value hij
  exact ⟨_, rebuild_eq_ok_iff.mpr
    ⟨hlength, s, hrun, Rebuild.finish?_eq_some_iff.mpr ⟨ds, hds, hset⟩⟩⟩

end Tape

end OpTape
