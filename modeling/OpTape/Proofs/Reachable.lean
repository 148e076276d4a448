import OpTape.Pipeline
import OpTape.Proofs.MergeWalk
import OpTape.Proofs.Rebuilding
/-
  The tapes that can come about: a new tape, and what recording, restarting, setting dependents,
  changing options and the passes make of one. All of them are in order
  (`Reachable.wellFormed`).
-/
namespace OpTape.Tape

/-! ## What the passes are made of -/

section

variable {V : Type} {t t' : Tape V} {r : Registry V}

theorem exists_rebuild_of_dropDead (h : t.dropDead r = .ok t') :
    ∃ actions, t.rebuild actions = .ok t' := by
  obtain ⟨_, -, hrebuild⟩ := bind_eq_ok_iff.mp h
  exact ⟨_, hrebuild⟩

variable [Scalar V]

theorem exists_rebuild_of_foldConstants (h : t.foldConstants r = .ok t') :
    ∃ actions, t.rebuild actions = .ok t' := by
  obtain ⟨_, -, hrebuild⟩ := bind_eq_ok_iff.mp h
  exact ⟨_, hrebuild⟩

theorem wellFormed_of_foldConstants (h : t.foldConstants r = .ok t') : t'.WellFormed := by
  obtain ⟨_, hrebuild⟩ := exists_rebuild_of_foldConstants h
  exact rebuild_wellFormed hrebuild

variable [DecidableEq V]

theorem deduplicate_eq_ok_iff :
    t.deduplicate r = .ok t' ↔ ∃ merged, t.mergeEqual = .ok merged ∧ merged.dropDead r = .ok t' :=
  bind_eq_ok_iff

theorem optimize_eq_ok_iff :
    t.optimize r = .ok t' ↔ ∃ folded, t.foldConstants r = .ok folded ∧
      ∃ merged, folded.mergeEqual = .ok merged ∧
        ∃ fused, merged.fuseSums = .ok fused ∧ fused.dropDead r = .ok t' := by
  simp only [optimize, bind_eq_ok_iff, mapError_eq_ok_iff]

end

/-! ## What requests lead to -/

variable {V : Type} [Scalar V] [DecidableEq V]

/-- The tapes that requests can lead to, with any functions registered. -/
inductive Reachable : Tape V → Prop
  | new (n : Nat) (options : Options) : Reachable (new n options)
  | record {t t' : Tape V} {u : Usage V} {offer : Recorded} (ht : Reachable t)
      (h : t.record? u = some (offer, t')) : Reachable t'
  | restart {t : Tape V} (ht : Reachable t) (n : Nat) : Reachable (t.restart n)
  | setDependents {t t' : Tape V} {values : List Nat} (ht : Reachable t)
      (h : t.setDependents? values = some t') : Reachable t'
  | setOption {t t' : Tape V} {name value : String} (ht : Reachable t)
      (h : t.setOption name value = .ok t') : Reachable t'
  | dropDead {t t' : Tape V} {r : Registry V} (ht : Reachable t) (h : t.dropDead r = .ok t') :
      Reachable t'
  | mergeEqual {t t' : Tape V} (ht : Reachable t) (h : t.mergeEqual = .ok t') : Reachable t'
  | foldConstants {t t' : Tape V} {r : Registry V} (ht : Reachable t)
      (h : t.foldConstants r = .ok t') : Reachable t'
  | fuseSums {t t' : Tape V} (ht : Reachable t) (h : t.fuseSums = .ok t') : Reachable t'

theorem Reachable.push {t : Tape V} (ht : Reachable t) {u : Usage V} (hu : t.Admits u) :
    Reachable (t.push u) := by
  have h : t.record? u = some (t.offers u, t.push u) := by
    rw [record?, append?_eq_some_iff.mpr ⟨hu, rfl⟩]
    rfl
  exact ht.record h

theorem Reachable.withDependents {t : Tape V} (ht : Reachable t) {values : List Nat}
    (hnone : t.deps = none) (hvalues : ∀ i ∈ values, i < t.valueCount) :
    Reachable { t with deps := some values } :=
  ht.setDependents (setDependents?_eq_some_iff.mpr ⟨⟨hnone, hvalues⟩, rfl⟩)

/-- Passes in a row lead to reachable tapes. -/
theorem Reachable.deduplicate {t t' : Tape V} {r : Registry V} (ht : Reachable t)
    (h : t.deduplicate r = .ok t') : Reachable t' := by
  obtain ⟨merged, hmerge, hdrop⟩ := deduplicate_eq_ok_iff.mp h
  exact (ht.mergeEqual hmerge).dropDead hdrop

theorem Reachable.optimize {t t' : Tape V} {r : Registry V} (ht : Reachable t)
    (h : t.optimize r = .ok t') : Reachable t' := by
  obtain ⟨folded, hfold, merged, hmerge, fused, hfuse, hdrop⟩ := optimize_eq_ok_iff.mp h
  exact (((ht.foldConstants hfold).mergeEqual hmerge).fuseSums hfuse).dropDead hdrop

theorem Reachable.wellFormed {t : Tape V} (ht : Reachable t) : t.WellFormed := by
  induction ht with
  | new n options => exact .new n options
  | record _ h ih => exact ih.record h
  | restart _ n _ => exact .new n _
  | setDependents _ h ih => exact ih.setDependents h
  | setOption _ h ih => exact ih.setOption h
  | dropDead _ h _ =>
    obtain ⟨_, hrebuild⟩ := exists_rebuild_of_dropDead h
    exact rebuild_wellFormed hrebuild
  | mergeEqual _ h ih => exact ih.mergeEqual h
  | foldConstants _ h _ => exact wellFormed_of_foldConstants h
  | fuseSums _ h _ => exact rebuild_wellFormed h

end OpTape.Tape
