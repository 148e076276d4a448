import OpTape.Proofs.Sessions
/-
  When the outputs of a session are settled. A request sets them as long as the tape has none, and
  a tape that was rebuilt has some: rebuilding closes the new tape with what stands for the old
  dependents, even where these were never set. So a session can set its outputs exactly until a
  request to set them, or one of the four passes that rebuild, was granted
  (`setDependents_granted_iff`). Merging equal usages renames the operands of a copy and settles
  nothing; the two kinds of passes differ here.
-/
namespace OpTape

variable {V : Type}

namespace Request

/-- The request asks for the outputs to be set. -/
def setsDependents : Request V → Bool
  | setDependents _ => true
  | _ => false

/-- The request asks for a pass that records the tape anew. -/
def rebuilds : Request V → Bool
  | dropDead | foldConstants | fuseSums | optimize => true
  | _ => false

/-- Once such a request is granted, the outputs are set. -/
def settles (q : Request V) : Bool := q.setsDependents || q.rebuilds

theorem Asks.settles_eq {q : Request V} {u : Usage V} (h : q.Asks u) : q.settles = false := by
  cases h <;> rfl

end Request

/-! ## Passes -/

namespace Tape

variable {t t' : Tape V}

/-- A rebuilt tape has its outputs set, whatever the old one had. -/
theorem isSome_deps_of_rebuild {actions : List (Action V)} (h : t.rebuild actions = .ok t') :
    t'.deps.isSome = true := by
  obtain ⟨-, b, -, hfinish⟩ := rebuild_eq_ok_iff.mp h
  obtain ⟨ds, -, hset⟩ := Rebuild.finish?_eq_some_iff.mp hfinish
  obtain ⟨-, rfl⟩ := setDependents?_eq_some_iff.mp hset
  rfl

theorem isSome_deps_of_dropDead {r : Registry V} (h : t.dropDead r = .ok t') :
    t'.deps.isSome = true := by
  obtain ⟨_, hrebuild⟩ := exists_rebuild_of_dropDead h
  exact isSome_deps_of_rebuild hrebuild

theorem deps_of_setOption {name value : String} (h : t.setOption name value = .ok t') :
    t'.deps = t.deps := by
  obtain ⟨options, -, heq⟩ := bind_eq_ok_iff.mp h
  obtain rfl := Except.ok.inj heq
  rfl

variable [Scalar V] [DecidableEq V]

/-- Merging renames outputs that are set and sets none. -/
theorem isSome_deps_of_mergeEqual (h : t.mergeEqual = .ok t') :
    t'.deps.isSome = t.deps.isSome := by
  obtain ⟨_, m, deps, -, hdeps, rfl⟩ := mergeEqual_eq_ok_iff.mp h
  cases hset : t.deps with
  | none =>
    rw [hset] at hdeps
    obtain rfl : none = deps := by simpa using hdeps
    rfl
  | some values =>
    rw [hset] at hdeps
    obtain ⟨values', -, rfl⟩ : ∃ values', values.mapM m.value? = some values' ∧
        some values' = deps := by simpa using hdeps
    rfl

end Tape

variable [Scalar V] [DecidableEq V]

theorem Request.Passes.isSome_deps {t t' : Tape V} {q : Request V} (h : q.Passes t t') :
    t'.deps.isSome = (t.deps.isSome || q.settles) := by
  cases h with
  | dropDead h => rw [Tape.isSome_deps_of_dropDead h]; exact (Bool.or_true _).symm
  | mergeEqual h => rw [Tape.isSome_deps_of_mergeEqual h]; exact (Bool.or_false _).symm
  | foldConstants h =>
    obtain ⟨_, hrebuild⟩ := Tape.exists_rebuild_of_foldConstants h
    rw [Tape.isSome_deps_of_rebuild hrebuild]
    exact (Bool.or_true _).symm
  | fuseSums h => rw [Tape.isSome_deps_of_rebuild h]; exact (Bool.or_true _).symm
  | optimize h =>
    obtain ⟨_, -, _, -, _, -, hdrop⟩ := Tape.optimize_eq_ok_iff.mp h
    rw [Tape.isSome_deps_of_dropDead hdrop]
    exact (Bool.or_true _).symm

/-! ## Histories -/

namespace Session

variable {s s' : Session V}

/-- What a request does to the question whether the outputs are set. -/
theorem Performed.isSome_deps {q : Request V} {answer : Except (Refusal V) (Reply V)}
    (h : s.Performed q answer s') :
    s'.tape.deps.isSome = (s.tape.deps.isSome || (answer.isOk && q.settles)) := by
  cases h with
  | refused => exact (Bool.or_false _).symm
  | recorded hasks => rw [hasks.settles_eq]; exact (Bool.or_false _).symm
  | dependents => exact (Bool.or_true _).symm
  | option h =>
    show _ = (s.tape.deps.isSome || false)
    rw [Tape.deps_of_setOption h, Bool.or_false]
  | evaluated | traced => exact (Bool.or_false _).symm
  | passed h => exact h.isSome_deps

/-- The requests of a history that are granted, in order. -/
def granted (s : Session V) : List (Request V) → List (Request V)
  | [] => []
  | q :: rest =>
    if (s.perform q).1.isOk then q :: (s.perform q).2.granted rest
    else (s.perform q).2.granted rest

/-- The outputs are set once a request that settles them was granted, and not before. -/
theorem isSome_deps_after (hs : s.tape.SelfContained) (history : List (Request V)) :
    (s.after history).tape.deps.isSome
      = (s.tape.deps.isSome || (s.granted history).any Request.settles) := by
  induction history generalizing s with
  | nil => exact (Bool.or_false _).symm
  | cons q rest ih =>
    have hstep := performs hs q
    calc (s.after (q :: rest)).tape.deps.isSome
        = ((s.perform q).2.tape.deps.isSome
            || ((s.perform q).2.granted rest).any Request.settles) := ih (hstep.selfContained hs)
      _ = (s.tape.deps.isSome || ((s.perform q).1.isOk && q.settles)
            || ((s.perform q).2.granted rest).any Request.settles) := by rw [hstep.isSome_deps]
      _ = (s.tape.deps.isSome || (s.granted (q :: rest)).any Request.settles) := by
        rw [granted, Bool.or_assoc]
        cases (s.perform q).1.isOk <;> simp

/-- Outputs can be set where none are set and all of them exist. -/
theorem Performed.isOk_setDependents_iff {values : List Nat}
    {answer : Except (Refusal V) (Reply V)} (h : s.Performed (.setDependents values) answer s') :
    answer.isOk = true ↔
      s.tape.deps.isSome = false ∧ ∀ i ∈ values, i < s.tape.valueCount := by
  cases h with
  | refused h =>
    have hnot : ¬ (s.tape.deps.isSome = false ∧ ∀ i ∈ values, i < s.tape.valueCount) := by
      rintro ⟨hnone, hvalues⟩
      cases h with
      | argument hasks => cases hasks
      | dependent hi hle => exact absurd (hvalues _ hi) (Nat.not_lt.mpr hle)
      | dependentsSet hset => exact absurd (hnone.symm.trans hset) Bool.false_ne_true
    exact iff_of_false Bool.false_ne_true hnot
  | recorded hasks => cases hasks
  | dependents hnone hvalues => exact iff_of_true rfl ⟨by rw [hnone]; rfl, hvalues⟩
  | passed h => cases h

/-- A session sets its outputs exactly if these exist and nothing settled the matter before:
neither a request to set them that was granted, nor a pass that rebuilt the tape. -/
theorem setDependents_granted_iff (n : Nat) (history : List (Request V)) (values : List Nat) :
    let s := (new n : Session V).after history
    (s.perform (.setDependents values)).1.isOk = true ↔
      (∀ i ∈ values, i < s.tape.valueCount) ∧
        ∀ q ∈ (new n).granted history, q.setsDependents = false ∧ q.rebuilds = false := by
  intro s
  have hnew : (new n : Session V).tape.SelfContained := ⟨.new n {}, Tape.standsAlone_new n {}⟩
  have hdeps : s.tape.deps.isSome = ((new n).granted history).any Request.settles := by
    have hafter := isSome_deps_after hnew history
    exact hafter.trans (Bool.false_or _)
  have hopen : ((new n).granted history).any Request.settles = false ↔
      ∀ q ∈ (new n).granted history, q.setsDependents = false ∧ q.rebuilds = false := by
    simp [Request.settles]
  rw [(performs_setDependents s values).isOk_setDependents_iff, hdeps, hopen]
  exact And.comm

/-- Dead code is dropped from a new tape, and then the first request to set the outputs is
refused, with the reason that they are set. It is not true that only such a request sets them. -/
theorem setDependents_refused_dropped :
    let s := (new 1 : Session Float).after [.dropDead]
    (new 1 : Session Float).granted [.dropDead] = [.dropDead] ∧
      (∀ i ∈ [0], i < s.tape.valueCount) ∧
      (s.perform (.setDependents [0])).1 = .error .dependentsSet ∧
      ¬ ∀ (n : Nat) (history : List (Request Float)) (values : List Nat),
        (∀ i ∈ values, i < ((new n).after history).tape.valueCount) →
          ((((new n).after history).perform (.setDependents values)).1.isOk = true ↔
            ∀ q ∈ (new n).granted history, q.setsDependents = false) := by
  have hgranted : (new 1 : Session Float).granted [.dropDead] = [.dropDead] := by
    with_unfolding_all rfl
  have hvalues : ∀ i ∈ [0], i < ((new 1 : Session Float).after [.dropDead]).tape.valueCount := by
    with_unfolding_all decide
  have hrefused : (((new 1 : Session Float).after [.dropDead]).perform (.setDependents [0])).1
      = .error .dependentsSet := by
    with_unfolding_all rfl
  refine ⟨hgranted, hvalues, hrefused, fun h => ?_⟩
  have hiff := h 1 [.dropDead] [0] hvalues
  rw [hgranted, hrefused] at hiff
  exact absurd (hiff.mpr (by simp [Request.setsDependents])) Bool.false_ne_true

end Session

end OpTape
