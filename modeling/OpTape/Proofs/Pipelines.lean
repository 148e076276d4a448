import Mathlib
import OpTape.Proofs.DeadCode
import OpTape.Proofs.Folding
import OpTape.Proofs.Inheritance
import OpTape.Proofs.Merging
import OpTape.Proofs.PassFaults
import OpTape.Proofs.SumFusion
/-
  Passes in a row keep what is observed. Every stage but the last shows exactly what the tape
  before it shows, so these compose by rewriting; dropping dead code comes last and keeps an
  evaluation that succeeds (`Tape.KeptBy`). The stages ask for different things: folding for
  sound constancy answers, merging for operators that commute, fusing for exact sums, and
  dropping for honest dependence answers. The options of the first tape reach the last stage,
  and each stage leaves a tape in order for the next.
-/
namespace OpTape

theorem Scalar.commutes_rat : Scalar.Commutes Rat := by
  intro op hop a b
  cases op with
  | add => exact Rat.add_comm a b
  | mul => exact Rat.mul_comm a b
  | sub | div | pow => cases hop

namespace Tape

variable {V : Type} [Scalar V] {r : Registry V} {t t₁ t' : Tape V} {x : List V}

/-- A stage that shows what the tape shows may come first. -/
theorem KeptBy.after (h : t₁.KeptBy t' r x) (hobserve : t₁.observe r x = t.observe r x)
    (hoptions : t₁.options = t.options) : t.KeptBy t' r x := by
  rw [KeptBy, hobserve, hoptions] at h
  exact h

variable [DecidableEq V]

/-- Merging equal usages keeps the whole evaluation, and so what it shows. -/
theorem observe_of_mergeEqual (hcomm : Scalar.Commutes V) (h : t.mergeEqual = .ok t')
    (r : Registry V) (x : List V) : t'.observe r x = t.observe r x := by
  have hind := (handsOn_of_mergeEqual h).indCount
  have hvalues : t'.valueCount = t.valueCount := by
    obtain ⟨us', m, deps, hwalk, -, rfl⟩ := mergeEqual_eq_ok_iff.mp h
    exact valueCount_of_walk hwalk
  have hinitial : t'.initial x = t.initial x := by rw [initial, initial, hind, hvalues]
  simp only [observe, hind, hinitial, evaluate_of_mergeEqual hcomm h]

theorem keptBy_of_deduplicate (hcomm : Scalar.Commutes V)
    (hzero : Scalar.lt (Scalar.zero : V) Scalar.zero = false) (hr : r.Honest)
    (h : t.deduplicate r = .ok t') : t.KeptBy t' r x := by
  obtain ⟨merged, hmerge, hdrop⟩ := deduplicate_eq_ok_iff.mp h
  exact (keptBy_of_dropDead hzero (hr.supports _) hdrop x).after
    (observe_of_mergeEqual hcomm hmerge r x) (handsOn_of_mergeEqual hmerge).options

theorem keptBy_of_optimize [AddCommGroup V] (hexact : Scalar.IsExact V)
    (hcomm : Scalar.Commutes V) (hzero : Scalar.lt (Scalar.zero : V) Scalar.zero = false)
    (hr : r.Honest) (hconstancy : r.SoundConstancy) (h : t.optimize r = .ok t') :
    t.KeptBy t' r x := by
  obtain ⟨folded, hfold, merged, hmerge, fused, hfuse, hdrop⟩ := optimize_eq_ok_iff.mp h
  have hmerged := (wellFormed_of_foldConstants hfold).mergeEqual hmerge
  have hobserve : fused.observe r x = t.observe r x := by
    rw [hmerged.observe_of_fuseSums hexact hfuse, observe_of_mergeEqual hcomm hmerge,
      observe_of_foldConstants hconstancy hfold]
  have hhanded := ((handsOn_of_foldConstants hfold).trans (handsOn_of_mergeEqual hmerge)).trans
    (handsOn_of_rebuild hfuse)
  exact (keptBy_of_dropDead hzero (hr.supports _) hdrop x).after hobserve hhanded.options

theorem stage_of_optimize_eq_error {f : StageFault V} (h : t.optimize r = .error f) :
    f.stage = .foldConstants ∨ f.stage = .dropDead := by
  rcases optimize_eq_error_cases h with ⟨fault, -, rfl⟩ | ⟨_, _, _, fault, -, -, -, -, rfl⟩
  · exact Or.inl rfl
  · exact Or.inr rfl

/-- The pipelines keep what is observed, whatever tape they start from. Merging before dropping
asks for operators that commute and for honest functions; the whole optimization for exact sums
and for sound constancy answers as well. An optimization that has no result stopped in a query to
a registered function, while folding or while dropping. -/
theorem pipelines_preserve (t : Tape V) (r : Registry V) :
    (∀ f, t.optimize r = .error f → f.stage = .foldConstants ∨ f.stage = .dropDead) ∧
      (Scalar.Commutes V → Scalar.lt (Scalar.zero : V) Scalar.zero = false → r.Honest →
        (∀ t', t.deduplicate r = .ok t' → ∀ x, t.KeptBy t' r x) ∧
          ∀ [AddCommGroup V], Scalar.IsExact V → r.SoundConstancy →
            ∀ t', t.optimize r = .ok t' → ∀ x, t.KeptBy t' r x) := by
  refine ⟨fun f h => stage_of_optimize_eq_error h, fun hcomm hzero hr => ⟨?_, ?_⟩⟩
  · intro t' h x
    exact keptBy_of_deduplicate hcomm hzero hr h
  · intro _ hexact hconstancy t' h x
    exact keptBy_of_optimize hexact hcomm hzero hr hconstancy h

/-- A square less two values that it is made from, and a print that never happens. -/
def squareLess : Tape Rat :=
  let inner := ((((new 1 {}).push (.constant 1)).push (.binary .sub 2 2)).push
    (.print "never" "" 3 0)).push (.foreign .call 0 0 1 [0, 2])
  let square := ((inner.push (.binary .add 4 0)).push (.binary .add 0 4)).push (.binary .mul 5 6)
  { (square.push (.binary .sub 7 0)).push (.binary .sub 8 4) with deps := some [9] }

/-- The sum is made once, and the print stays because its flag is not the zero value. -/
def squareLessOnce : Tape Rat :=
  let inner := ((((new 1 {}).push (.constant 1)).push (.binary .sub 2 2)).push
    (.print "never" "" 3 0)).push (.foreign .call 0 0 1 [0, 1])
  let square := (inner.push (.binary .add 4 0)).push (.binary .mul 5 5)
  { (square.push (.binary .sub 6 0)).push (.binary .sub 7 4) with deps := some [8] }

/-- The flag of the print is folded to the zero value, and the differences are one sum. -/
def squareLessOptimized : Tape Rat :=
  let square := (((new 1 {}).push (.foreign .call 0 0 1 [0, 1])).push (.binary .add 2 0)).push
    (.binary .mul 3 3)
  { square.push (.sum [4] [0, 2]) with deps := some [5] }

theorem pipelines_preserve_squareLess : squareLess.Reachable ∧ Scalar.Commutes Rat ∧
    Scalar.IsExact Rat ∧ Scalar.lt (Scalar.zero : Rat) Scalar.zero = false ∧
    (Registry.selecting (V := Rat)).Honest ∧ (Registry.selecting (V := Rat)).SoundConstancy ∧
    squareLess.deduplicate .selecting = .ok squareLessOnce ∧
    squareLess.optimize .selecting = .ok squareLessOptimized ∧
    (squareLess.observe .selecting [3]).outcome
      = .ok { dependents := [30], compareFalse := 0 } ∧
    (∃ a, (squareLessOnce.observe .selecting [3]).outcome = .ok a ∧ a.dependents = [30]) ∧
    ∃ a, (squareLessOptimized.observe .selecting [3]).outcome = .ok a ∧ a.dependents = [30] := by
  have hreachable : squareLess.Reachable :=
    (((((((((Reachable.new 1 {}).push (by decide)).push (by decide)).push (by decide)).push
      (by decide)).push (by decide)).push (by decide)).push (by decide)).push (by decide)).push
      (by decide) |>.withDependents rfl (by decide)
  have hzero : Scalar.lt (Scalar.zero : Rat) Scalar.zero = false := by decide
  have hdeduplicate : squareLess.deduplicate .selecting = .ok squareLessOnce := by cbv
  have hoptimize : squareLess.optimize .selecting = .ok squareLessOptimized := by cbv
  have ha : (squareLess.observe .selecting [3]).outcome
      = .ok { dependents := [30], compareFalse := 0 } := by cbv
  obtain ⟨-, hkept⟩ := pipelines_preserve squareLess .selecting
  obtain ⟨honce, hoptimized⟩ := hkept Scalar.commutes_rat hzero Registry.selecting_honest
  obtain ⟨a, hobserve, hdeps, -⟩ := honce _ hdeduplicate [3] _ ha
  obtain ⟨a', hobserve', hdeps', -⟩ :=
    hoptimized Scalar.isExact_rat Registry.selecting_soundConstancy _ hoptimize [3] _ ha
  exact ⟨hreachable, Scalar.commutes_rat, Scalar.isExact_rat, hzero, Registry.selecting_honest,
    Registry.selecting_soundConstancy, hdeduplicate, hoptimize, ha, ⟨a, hobserve, hdeps⟩, a',
    hobserve', hdeps'⟩

end Tape

end OpTape
