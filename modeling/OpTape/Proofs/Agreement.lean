import OpTape.Evaluation
import OpTape.Proofs.Traversal
/-
  What is asked of registered functions. Their answers on dependence and on constancy are
  promises about their values: two input lists that agree where it is said to matter
  (`AgreeOn`) lead to the same results where these are asked for, if they lead to results at all
  (`SameResults`); an honest function fails at both or at neither as well (`SameOn`). The
  promises are stated for one function, and hold for the queries of a registry when all its
  functions keep them. A function that only keeps its values can refuse inputs that a pass gives
  it in the place of others (`Refuses`).
-/
namespace OpTape

variable {V ε : Type}

/-- The lists agree wherever there is a mark. -/
inductive AgreeOn : List Bool → List V → List V → Prop
  | nil : AgreeOn [] [] []
  | cons {mark : Bool} {marks : List Bool} {a b : V} {x y : List V} (h : mark = true → a = b)
      (rest : AgreeOn marks x y) : AgreeOn (mark :: marks) (a :: x) (b :: y)

/-- Both calls fail, or both succeed with the same results wherever there is a flag. -/
def SameOn {n : Nat} (flags : List Bool) : Except ε (Vector V n) → Except ε (Vector V n) → Prop
  | .ok a, .ok b => ∀ j : Nat, flags[j]? = some true → a[j]? = b[j]?
  | .error _, .error _ => True
  | _, _ => False

namespace SameOn

variable {n : Nat} {flags : List Bool} {c d : Except ε (Vector V n)}

theorem exists_ok (h : SameOn flags c d) {a : Vector V n} (ha : c = .ok a) :
    ∃ b, d = .ok b ∧ ∀ j : Nat, flags[j]? = some true → a[j]? = b[j]? := by
  subst ha
  cases d with
  | error e => exact h.elim
  | ok b => exact ⟨b, rfl, h⟩

theorem symm (h : SameOn flags c d) : SameOn flags d c := by
  cases c <;> cases d
  · trivial
  · exact h.elim
  · exact h.elim
  · exact fun j hj => (h j hj).symm

theorem mapError {ε' : Type} (h : SameOn flags c d) (f : ε → ε') :
    SameOn flags (c.mapError f) (d.mapError f) := by
  cases c <;> cases d <;> exact h

end SameOn

/-- If both calls succeed, they have the same results wherever there is a flag. -/
def SameResults {n : Nat} (flags : List Bool) (c d : Except ε (Vector V n)) : Prop :=
  ∀ a b, c = .ok a → d = .ok b → ∀ j : Nat, flags[j]? = some true → a[j]? = b[j]?

theorem SameOn.sameResults {n : Nat} {flags : List Bool} {c d : Except ε (Vector V n)}
    (h : SameOn flags c d) : SameResults flags c d := by
  rintro a b rfl rfl
  exact h

/-- The inputs with another value in the place of each one without a mark. -/
def substituted (other : V) (marks : List Bool) (x : List V) : List V :=
  List.zipWith (fun mark v => if mark then v else other) marks x

theorem agreeOn_substituted (other : V) {marks : List Bool} {x : List V}
    (h : marks.length = x.length) : AgreeOn marks x (substituted other marks x) := by
  induction marks generalizing x with
  | nil =>
    obtain rfl := List.length_eq_zero_iff.mp h.symm
    exact .nil
  | cons mark marks ih =>
    cases x with
    | nil => simp at h
    | cons v x => exact .cons (fun hmark => (if_pos hmark).symm) (ih (by simpa using h))

namespace Foreign

/-- Needed results, and success, depend only on the inputs that are marked for them. -/
def Honest (f : Foreign V) : Prop :=
  ∀ callId needed inputCount reads, needed.any (·) →
    f.dependence callId needed inputCount = .ok reads →
    ∀ x y : List V, AgreeOn reads.toList x y →
      SameOn needed (f.apply callId x needed.length) (f.apply callId y needed.length)

/-- A result that is flagged constant, and success, depend only on the constant inputs. -/
def SoundConstancy (f : Foreign V) : Prop :=
  ∀ callId constant resultCount flags, flags.toList.any (·) →
    f.constancy callId constant resultCount = .ok flags →
    ∀ x y : List V, AgreeOn constant x y →
      SameOn flags.toList (f.apply callId x resultCount) (f.apply callId y resultCount)

/-- Needed results depend only on the inputs that are marked for them, where there are results. -/
def KeepsValues (f : Foreign V) : Prop :=
  ∀ callId needed n inputCount reads, needed.length = n →
    f.dependence callId needed inputCount = .ok reads →
    ∀ x y : List V, AgreeOn reads.toList x y →
      SameResults needed (f.apply callId x n) (f.apply callId y n)

/-- A result that is flagged constant depends only on the constant inputs, where there are
results. -/
def KeepsConstants (f : Foreign V) : Prop :=
  ∀ callId constant resultCount flags,
    f.constancy callId constant resultCount = .ok flags →
    ∀ x y : List V, AgreeOn constant x y →
      SameResults flags.toList (f.apply callId x resultCount) (f.apply callId y resultCount)

end Foreign

namespace Registry

/-- Every registered function is honest about what its results depend on. -/
def Honest (r : Registry V) : Prop := ∀ family id f, r.get family id = .ok f → f.Honest

/-- Every registered function is right about which of its results are constant. -/
def SoundConstancy (r : Registry V) : Prop :=
  ∀ family id f, r.get family id = .ok f → f.SoundConstancy

/-- Every registered function keeps the values of its needed results. -/
def KeepsValues (r : Registry V) : Prop :=
  ∀ family id f, r.get family id = .ok f → f.KeepsValues

/-- Every registered function keeps the values of its constant results. -/
def KeepsConstants (r : Registry V) : Prop :=
  ∀ family id f, r.get family id = .ok f → f.KeepsConstants

variable {r : Registry V} {family : Family} {id callId : Nat}

theorem mem_table_of_get {f : Foreign V} (h : r.get family id = .ok f) :
    Entry.live f ∈ r.table family := by
  unfold get at h
  split at h
  · rename_i g hentry
    obtain rfl := Except.ok.inj h
    exact Array.mem_of_getElem? hentry
  · cases h
  · cases h

theorem sameOn_apply {n : Nat} {flags : List Bool} {x y : List V}
    (h : ∀ {f}, r.get family id = .ok f → SameOn flags (f.apply callId x n) (f.apply callId y n)) :
    SameOn flags (r.apply family id callId x n) (r.apply family id callId y n) := by
  unfold Registry.apply
  cases hget : r.get family id with
  | error e => trivial
  | ok f => exact (h hget).mapError _

theorem sameResults_apply {n : Nat} {flags : List Bool} {x y : List V} {f : Foreign V}
    (hget : r.get family id = .ok f)
    (h : SameResults flags (f.apply callId x n) (f.apply callId y n)) :
    SameResults flags (r.apply family id callId x n) (r.apply family id callId y n) := by
  intro a b ha hb
  obtain ⟨f', hget', ha⟩ := bind_eq_ok_iff.mp ha
  obtain ⟨f'', hget'', hb⟩ := bind_eq_ok_iff.mp hb
  obtain rfl : f = f' := Except.ok.inj (hget.symm.trans hget')
  obtain rfl : f = f'' := Except.ok.inj (hget.symm.trans hget'')
  exact h a b (mapError_eq_ok_iff.mp ha) (mapError_eq_ok_iff.mp hb)

/-- An answer of a registry is the answer of a function in it. -/
theorem dependence_eq_ok {needed : List Bool} {inputCount : Nat} {reads : Vector Bool inputCount}
    (h : r.dependence family id callId needed inputCount = .ok reads) :
    ∃ f, r.get family id = .ok f ∧ f.dependence callId needed inputCount = .ok reads := by
  obtain ⟨f, hget, h⟩ := bind_eq_ok_iff.mp h
  exact ⟨f, hget, mapError_eq_ok_iff.mp h⟩

theorem constancy_eq_ok {constant : List Bool} {resultCount : Nat}
    {flags : Vector Bool resultCount}
    (h : r.constancy family id callId constant resultCount = .ok flags) :
    ∃ f, r.get family id = .ok f ∧ f.constancy callId constant resultCount = .ok flags := by
  obtain ⟨f, hget, h⟩ := bind_eq_ok_iff.mp h
  exact ⟨f, hget, mapError_eq_ok_iff.mp h⟩

theorem Honest.sameOn (hr : r.Honest) {needed : List Bool} {inputCount : Nat}
    {reads : Vector Bool inputCount} (hneeded : needed.any (·))
    (hreads : r.dependence family id callId needed inputCount = .ok reads) {x y : List V}
    (hagree : AgreeOn reads.toList x y) :
    SameOn needed (r.apply family id callId x needed.length)
      (r.apply family id callId y needed.length) := by
  obtain ⟨f, hget, hf⟩ := dependence_eq_ok hreads
  refine sameOn_apply fun {f'} hget' => ?_
  obtain rfl : f = f' := Except.ok.inj (hget.symm.trans hget')
  exact hr _ _ f hget callId needed inputCount reads hneeded hf x y hagree

theorem SoundConstancy.sameOn (hr : r.SoundConstancy) {constant : List Bool} {resultCount : Nat}
    {flags : Vector Bool resultCount} (hany : flags.toList.any (·))
    (hflags : r.constancy family id callId constant resultCount = .ok flags) {x y : List V}
    (hagree : AgreeOn constant x y) :
    SameOn flags.toList (r.apply family id callId x resultCount)
      (r.apply family id callId y resultCount) := by
  obtain ⟨f, hget, hf⟩ := constancy_eq_ok hflags
  refine sameOn_apply fun {f'} hget' => ?_
  obtain rfl : f = f' := Except.ok.inj (hget.symm.trans hget')
  exact hr _ _ f hget callId constant resultCount flags hany hf x y hagree

theorem KeepsValues.sameResults (hr : r.KeepsValues) {needed : List Bool} {inputCount n : Nat}
    {reads : Vector Bool inputCount} (hlength : needed.length = n)
    (hreads : r.dependence family id callId needed inputCount = .ok reads) {x y : List V}
    (hagree : AgreeOn reads.toList x y) :
    SameResults needed (r.apply family id callId x n) (r.apply family id callId y n) := by
  obtain ⟨f, hget, hf⟩ := dependence_eq_ok hreads
  exact sameResults_apply hget (hr _ _ f hget callId needed n _ reads hlength hf x y hagree)

theorem KeepsConstants.sameResults (hr : r.KeepsConstants) {constant : List Bool}
    {resultCount : Nat} {flags : Vector Bool resultCount}
    (hflags : r.constancy family id callId constant resultCount = .ok flags) {x y : List V}
    (hagree : AgreeOn constant x y) :
    SameResults flags.toList (r.apply family id callId x resultCount)
      (r.apply family id callId y resultCount) := by
  obtain ⟨f, hget, hf⟩ := constancy_eq_ok hflags
  exact sameResults_apply hget (hr _ _ f hget callId constant resultCount flags hf x y hagree)

/-- Without a flag there is nothing to keep. -/
theorem SoundConstancy.keepsConstants (hr : r.SoundConstancy) : r.KeepsConstants := by
  intro family id f hget callId constant n flags hflags x y hagree
  by_cases hany : flags.toList.any (·) = true
  · exact (hr _ _ f hget callId constant n flags hany hflags x y hagree).sameResults
  · intro a b _ _ j hj
    exact absurd (List.any_eq_true.mpr ⟨true, List.mem_of_getElem? hj, rfl⟩) hany

end Registry

/-! ## Inputs that a pass gives in the place of others -/

/-- A call that succeeds in state `s` is refused when `other` stands for its inputs without a
mark. -/
inductive Refuses (r : Registry V) (s : State V) (other : V) (marks : List Bool) :
    Usage V → Fault V → Prop
  | call {family : Family} {id callId n : Nat} {inputs : List Nat} {f : Foreign V} {x : List V}
      {a : Vector V n} {reason : String}
      (hx : inputs.mapM (entry s.values) = (.ok x : Except (Fault V) (List V)))
      (hget : r.get family id = .ok f) (ha : f.apply callId x n = .ok a)
      (hreason : f.apply callId (substituted other marks x) n = .error reason) :
      Refuses r s other marks (.foreign family id callId n inputs)
        (.applyFailed family id f.name reason)

theorem refuses_of_apply {r : Registry V} {s : State V} {other : V} {marks : List Bool}
    {family : Family} {id callId n : Nat} {inputs : List Nat} {x : List V} {a : Vector V n}
    {fault : Fault V} (hx : inputs.mapM (entry s.values) = (.ok x : Except (Fault V) (List V)))
    (ha : r.apply family id callId x n = .ok a)
    (hfault : r.apply family id callId (substituted other marks x) n = .error fault) :
    Refuses r s other marks (.foreign family id callId n inputs) fault := by
  obtain ⟨f, hget, ha⟩ := bind_eq_ok_iff.mp ha
  rcases bind_eq_error_iff.mp hfault with herror | ⟨f', hget', hfault⟩
  · cases hget.symm.trans herror
  obtain rfl : f = f' := Except.ok.inj (hget.symm.trans hget')
  obtain ⟨reason, hreason, rfl⟩ := mapError_eq_error_iff.mp hfault
  exact .call hx hget (mapError_eq_ok_iff.mp ha) hreason

/-- A refused call fails where the old one succeeds. -/
theorem Refuses.not_sameOn {r : Registry V} {s : State V} {other : V} {marks : List Bool}
    {family : Family} {id callId n : Nat} {inputs : List Nat} {fault : Fault V}
    (h : Refuses r s other marks (.foreign family id callId n inputs) fault) :
    ∃ x, inputs.mapM (entry s.values) = (.ok x : Except (Fault V) (List V)) ∧
      ∀ flags, ¬ SameOn flags (r.apply family id callId x n)
        (r.apply family id callId (substituted other marks x) n) := by
  obtain @⟨_, _, _, _, _, f, x, a, reason, hx, hget, ha, hreason⟩ := h
  refine ⟨x, hx, fun flags hsame => ?_⟩
  obtain ⟨b, hb, -⟩ := hsame.exists_ok
    (bind_eq_ok_iff.mpr ⟨f, hget, mapError_eq_ok_iff.mpr ha⟩)
  obtain ⟨f', hget', hb⟩ := bind_eq_ok_iff.mp hb
  obtain rfl : f = f' := Except.ok.inj (hget.symm.trans hget')
  cases hreason.symm.trans (mapError_eq_ok_iff.mp hb)

/-! ## A function that keeps its promises -/

/-- Hands on its first input and reads no other. -/
def Foreign.first : Foreign V where
  name := "first"
  apply _ inputs n :=
    match inputs with
    | [] => .error "no input"
    | a :: _ => .ok (.replicate n a)
  dependence _ _ _ := .ok (.ofFn fun i => i.val == 0)
  constancy _ constant n := .ok (.replicate n (constant.headD false))

theorem Foreign.first_honest : (first : Foreign V).Honest := by
  intro _ _ inputCount reads _ hreads x y hagree
  obtain rfl := Except.ok.inj hreads
  cases inputCount with
  | zero =>
    cases hagree
    trivial
  | succ n =>
    rw [Vector.toList_ofFn, List.ofFn_succ] at hagree
    cases hagree with
    | cons h _ =>
      obtain rfl := h rfl
      exact fun _ _ => rfl

theorem Foreign.first_soundConstancy : (first : Foreign V).SoundConstancy := by
  intro _ constant n flags hany hflags x y hagree
  obtain rfl := Except.ok.inj hflags
  cases hagree with
  | nil => simp at hany
  | @cons mark marks a b x y h _ =>
    have hmark : n ≠ 0 ∧ mark = true := by simpa using hany
    obtain rfl := h hmark.2
    exact fun _ _ => rfl

namespace Registry

/-- The registry with one function alone. -/
def only (f : Foreign V) : Registry V := { calls := #[.live f] }

theorem get_only {f g : Foreign V} {family : Family} {id : Nat}
    (h : (only f).get family id = .ok g) : g = f := by
  have hmem := mem_table_of_get h
  cases family with
  | call => simpa [only, table] using hmem
  | map => simp [only, table] at hmem

/-- The registry with this function alone. -/
def selecting : Registry V := { calls := #[.live .first] }

theorem selecting_honest : (selecting : Registry V).Honest := by
  intro family id f hget
  obtain rfl : f = .first := get_only hget
  exact Foreign.first_honest

theorem selecting_soundConstancy : (selecting : Registry V).SoundConstancy := by
  intro family id f hget
  obtain rfl : f = .first := get_only hget
  exact Foreign.first_soundConstancy

end Registry

end OpTape
