import OpTape.Proofs.Inheritance
import OpTape.Proofs.RegistryHistory
/-
  What a tape asks a registry for. A usage of a registered or a discrete function names it by its
  id (`Usage.reference?`), and the passes put no new names on a tape: a usage that is carried over
  names what it named before, and all that a pass adds names nothing (`references_of_passesTo`).
  A registry keeps what stands under an id through every change that spares it
  (`agreesAt_after`).
-/
namespace OpTape

/-- The name under which a usage asks a registry for a function. -/
inductive Reference
  | foreign (family : Family) (id : Nat)
  | discrete (id : Nat)
  deriving DecidableEq

variable {V : Type}

namespace Usage

/-- What a usage asks a registry for. -/
def reference? : Usage V → Option Reference
  | .foreign family id _ _ _ => some (.foreign family id)
  | .discrete id _ => some (.discrete id)
  | _ => none

theorem Renames.reference?_eq {value vector : Nat → Option Nat} {u u' : Usage V}
    (h : Renames value vector u u') : u'.reference? = u.reference? := by
  cases h <;> rfl

end Usage

/-- What the usages of a tape ask a registry for. -/
def Tape.references (t : Tape V) : List Reference := t.body.toList.filterMap Usage.reference?

/-! ## References through a pass -/

namespace Rebuild

variable {s s' : Rebuild V} {u : Usage V} {action : Action V}

theorem carryNeeded?_reference? {needed : List Bool} {new : Usage V}
    (h : s.carryNeeded? needed u = some new) : new.reference? = u.reference? := by
  cases u with
  | foreign family id callId n inputs =>
    obtain ⟨-, _, -, rfl⟩ := carryNeeded?_foreign_eq_some_iff.mp h
    rfl
  | _ => exact (carry?_eq_some_iff.mp h).reference?_eq

theorem references_replaced (s : Rebuild V) (u : Usage V) {new : Usage V}
    (h : new.reference? = u.reference?) :
    (s.replaced u new).tape.references = s.tape.references ++ u.reference?.toList := by
  unfold replaced Tape.references
  rw [tape_enter, tape_pushed, tape_enterVector, Tape.body_push, Array.toList_push,
    List.filterMap_append]
  cases href : u.reference? <;> simp [h, href]

theorem references_withConstants (s : Rebuild V) (values : List (Option V)) :
    (s.withConstants values).tape.references = s.tape.references := by
  induction values generalizing s with
  | nil => rfl
  | cons v rest ih =>
    cases v with
    | none => exact ih s
    | some v =>
      rw [withConstants, ih]
      unfold Tape.references
      rw [tape_pushed, Tape.body_push, Array.toList_push, List.filterMap_append]
      exact List.append_nil _

/-- An action adds the reference of its usage, or none. -/
theorem Step.references_cases (h : Step s u action s') :
    s'.tape.references = s.tape.references ++ u.reference?.toList ∨
      s'.tape.references = s.tape.references := by
  cases h with
  | drop => exact Or.inr (by rw [tape_enter, tape_enterVector])
  | copy hnew _ => exact Or.inl (references_replaced s u hnew.reference?_eq)
  | rebind hnew _ => exact Or.inl (references_replaced s u (carryNeeded?_reference? hnew))
  | constants => exact Or.inr (references_withConstants s _)
  | @foldResults values new _ hnew _ =>
    refine Or.inl ?_
    rw [tape_enter, references_withConstants, ← references_replaced s u hnew.reference?_eq]
    unfold replaced
    rw [tape_enter, tape_pushed, tape_pushed, tape_enterVector]
  | reuse => exact Or.inr rfl
  | sum _ _ _ =>
    refine Or.inr ?_
    unfold Tape.references
    rw [tape_enter, tape_pushed, Tape.body_push, Array.toList_push, List.filterMap_append]
    exact List.append_nil _

/-- A usage that is recorded again keeps its reference on the tape. -/
theorem Step.references_kept (h : Step s u action s')
    (hkept : action = .copy ∨ ∃ needed, action = .rebind needed) :
    s'.tape.references = s.tape.references ++ u.reference?.toList := by
  rcases hkept with rfl | ⟨needed, rfl⟩
  · cases h with
    | copy hnew _ => exact references_replaced s u hnew.reference?_eq
  · cases h with
    | rebind hnew _ => exact references_replaced s u (carryNeeded?_reference? hnew)

theorem references_of_run {plan : List (Usage V × Action V)} (h : s.run? plan = some s')
    {ref : Reference} (href : ref ∈ s'.tape.references) :
    ref ∈ s.tape.references ∨ ∃ step ∈ plan, step.1.reference? = some ref := by
  induction plan generalizing s with
  | nil =>
    obtain rfl := Option.some.inj h
    exact Or.inl href
  | cons step plan ih =>
    obtain ⟨s₁, hstep, hrun⟩ := run?_cons_eq_some_iff.mp h
    rcases ih hrun with hin | ⟨later, hlater, heq⟩
    · rcases hstep.references_cases with hall | hall
      · rw [hall, List.mem_append] at hin
        rcases hin with hin | hin
        · exact Or.inl hin
        · exact Or.inr ⟨step, List.mem_cons_self, Option.mem_toList.mp hin⟩
      · exact Or.inl (hall ▸ hin)
    · exact Or.inr ⟨later, List.mem_cons_of_mem _ hlater, heq⟩

theorem references_mono (h : s.tape.Grows s'.tape) {ref : Reference}
    (href : ref ∈ s.tape.references) : ref ∈ s'.tape.references := by
  obtain ⟨us, hus⟩ := h.body_eq
  unfold Tape.references at href ⊢
  rw [hus, List.filterMap_append]
  exact List.mem_append_left _ href

theorem references_kept_of_run {plan : List (Usage V × Action V)} (h : s.run? plan = some s')
    (hmem : (u, action) ∈ plan) (hkept : action = .copy ∨ ∃ needed, action = .rebind needed)
    {ref : Reference} (href : u.reference? = some ref) : ref ∈ s'.tape.references := by
  induction plan generalizing s with
  | nil => cases hmem
  | cons step plan ih =>
    obtain ⟨s₁, hstep, hrun⟩ := run?_cons_eq_some_iff.mp h
    rcases List.mem_cons.mp hmem with rfl | hmem
    · refine references_mono (grows_of_run? hrun) ?_
      rw [hstep.references_kept hkept, href]
      exact List.mem_append_right _ (List.mem_singleton.mpr rfl)
    · exact ih hrun hmem

end Rebuild

theorem Merge.Walk.references_eq [DecidableEq V] {m m' : Merge V} {us us' : List (Usage V)}
    (h : Merge.Walk m us us' m') :
    us'.filterMap Usage.reference? = us.filterMap Usage.reference? := by
  induction h with
  | nil => rfl
  | cons hu _ ih => rw [List.filterMap_cons, List.filterMap_cons, hu.reference?_eq, ih]

namespace Tape

variable {t t' : Tape V} {ref : Reference}

theorem references_setDependents {values : List Nat} (h : t.setDependents? values = some t') :
    t'.references = t.references := by
  obtain ⟨-, rfl⟩ := setDependents?_eq_some_iff.mp h
  rfl

/-- A pass that rebuilds a tape asks for nothing new. -/
theorem references_of_rebuild {actions : List (Action V)} (h : t.rebuild actions = .ok t')
    (href : ref ∈ t'.references) : ref ∈ t.references := by
  obtain ⟨-, s, hrun, hfinish⟩ := rebuild_eq_ok_iff.mp h
  obtain ⟨ds, -, hset⟩ := Rebuild.finish?_eq_some_iff.mp hfinish
  rw [references_setDependents hset] at href
  rcases Rebuild.references_of_run hrun href with hstart | ⟨step, hstep, heq⟩
  · cases hstart
  · exact List.mem_filterMap.mpr ⟨step.1, (List.of_mem_zip hstep).1, heq⟩

/-- What is recorded again asks for what it asked for before. -/
theorem references_kept_of_rebuild {actions : List (Action V)} {u : Usage V} {action : Action V}
    (h : t.rebuild actions = .ok t') (hmem : (u, action) ∈ t.body.toList.zip actions)
    (hkept : action = .copy ∨ ∃ needed, action = .rebind needed)
    (href : u.reference? = some ref) : ref ∈ t'.references := by
  obtain ⟨-, s, hrun, hfinish⟩ := rebuild_eq_ok_iff.mp h
  obtain ⟨ds, -, hset⟩ := Rebuild.finish?_eq_some_iff.mp hfinish
  rw [references_setDependents hset]
  exact Rebuild.references_kept_of_run hrun hmem hkept href

variable {r : Registry V}

theorem references_of_dropDead (h : t.dropDead r = .ok t') (href : ref ∈ t'.references) :
    ref ∈ t.references := by
  obtain ⟨_, hrebuild⟩ := exists_rebuild_of_dropDead h
  exact references_of_rebuild hrebuild href

variable [Scalar V]

theorem references_of_foldConstants (h : t.foldConstants r = .ok t') (href : ref ∈ t'.references) :
    ref ∈ t.references := by
  obtain ⟨_, hrebuild⟩ := exists_rebuild_of_foldConstants h
  exact references_of_rebuild hrebuild href

variable [DecidableEq V]

theorem references_of_mergeEqual (h : t.mergeEqual = .ok t') : t'.references = t.references := by
  obtain ⟨us', m, deps, hwalk, -, rfl⟩ := mergeEqual_eq_ok_iff.mp h
  have hbody : m.tape.body.toList = us' := hwalk.body_eq
  show m.tape.body.toList.filterMap Usage.reference? = _
  rw [hbody, hwalk.references_eq]
  rfl

/-- No pass asks for anything new. -/
theorem references_of_passesTo (h : t.PassesTo r t') (href : ref ∈ t'.references) :
    ref ∈ t.references := by
  cases h with
  | dropDead h => exact references_of_dropDead h href
  | mergeEqual h => exact references_of_mergeEqual h ▸ href
  | foldConstants h => exact references_of_foldConstants h href
  | fuseSums h => exact references_of_rebuild h href
  | deduplicate h =>
    obtain ⟨merged, hmerge, hdrop⟩ := deduplicate_eq_ok_iff.mp h
    exact references_of_mergeEqual hmerge ▸ references_of_dropDead hdrop href
  | optimize h =>
    obtain ⟨folded, hfold, merged, hmerge, fused, hfuse, hdrop⟩ := optimize_eq_ok_iff.mp h
    have hmerged := references_of_rebuild hfuse (references_of_dropDead hdrop href)
    exact references_of_foldConstants hfold (references_of_mergeEqual hmerge ▸ hmerged)

end Tape

/-! ## References through a history -/

namespace Registry

/-- The registry has given the id to a function. -/
def HandsOut (r : Registry V) : Reference → Prop
  | .foreign family id => id < (r.table family).size
  | .discrete id => id < r.discretes.size

instance (r : Registry V) : DecidablePred r.HandsOut
  | .foreign family id => inferInstanceAs (Decidable (id < (r.table family).size))
  | .discrete id => inferInstanceAs (Decidable (id < r.discretes.size))

/-- The same stands under a name in both registries. -/
def AgreesAt (r r' : Registry V) : Reference → Prop
  | .foreign family id => r'.entry? family id = r.entry? family id
  | .discrete id => r'.discretes[id]? = r.discretes[id]?

/-- The change does not touch what stands under a name that was given. -/
def Change.spares (ref : Reference) : Change V → Bool
  | delete family id => ref != .foreign family id
  | clear => false
  | register _ _ | registerDiscrete _ => true

variable {r r' : Registry V} {ref : Reference}

theorem AgreesAt.trans {r₁ : Registry V} (h : r.AgreesAt r₁ ref) (h' : r₁.AgreesAt r' ref) :
    r.AgreesAt r' ref := by
  cases ref <;> exact Eq.trans h' h

/-- A name that stands for something was given. -/
theorem AgreesAt.handsOut (h : r.AgreesAt r' ref) (href : r.HandsOut ref) : r'.HandsOut ref := by
  cases ref with
  | foreign family id =>
    have hsome : ((r.table family)[id]?).isSome := by simpa [HandsOut] using href
    unfold AgreesAt entry? at h
    rw [← h] at hsome
    simpa [HandsOut] using hsome
  | discrete id =>
    have hsome : (r.discretes[id]?).isSome := by simpa [HandsOut] using href
    unfold AgreesAt at h
    rw [← h] at hsome
    simpa [HandsOut] using hsome

/-- New functions get names of their own, and a deletion touches one entry. -/
theorem Performed.agreesAt {c : Change V} {answer : Except (Fault V) (Option Nat)}
    (h : r.Performed c answer r') (href : r.HandsOut ref) (hspares : c.spares ref = true) :
    r.AgreesAt r' ref := by
  cases h with
  | refused => cases ref <;> rfl
  | registered family f =>
    cases ref with
    | foreign family' id =>
      have hid : id < (r.table family').size := href
      refine (entry?_withTable_push r family (.live f) family' id).trans (if_neg ?_)
      rintro ⟨rfl, rfl⟩
      exact Nat.lt_irrefl _ hid
    | discrete id => exact congrArg (·[id]?) (discretes_withTable r family _)
  | registeredDiscrete g =>
    cases ref with
    | foreign family id => cases family <;> rfl
    | discrete id =>
      have hid : id < r.discretes.size := href
      exact (Array.getElem?_push_lt hid).trans (Array.getElem?_eq_getElem hid).symm
  | @deleted family id f hentry =>
    cases ref with
    | foreign family' id' =>
      refine (entry?_withTable_set r hentry _ family' id').trans (if_neg ?_)
      rintro ⟨rfl, rfl⟩
      simp [Change.spares] at hspares
    | discrete id' => exact congrArg (·[id']?) (discretes_withTable r family _)
  | cleared => cases hspares

/-- What stands under a name stays there through every history that spares it. -/
theorem agreesAt_after (href : r.HandsOut ref) {history : List (Change V)}
    (hspares : ∀ c ∈ history, c.spares ref = true) : r.AgreesAt (r.after history) ref := by
  induction history generalizing r with
  | nil => cases ref <;> rfl
  | cons c rest ih =>
    have hfirst := (performs r c).agreesAt href (hspares c List.mem_cons_self)
    have hrest := ih (hfirst.handsOut href) fun d hd => hspares d (List.mem_cons_of_mem c hd)
    exact hfirst.trans hrest

end Registry

end OpTape
