import OpTape.Proofs.Reachable
/-
  What every pass hands on: the independents, the options and the number of dependents. The
  three passes that rebuild a tape have it from rebuilding, merging has it from its walk, and
  the pipelines have it from their stages.
-/
namespace OpTape.Tape

variable {V : Type} {t t₁ t' : Tape V}

/-- Independents, options and the number of dependents are the same. -/
structure HandsOn (t t' : Tape V) : Prop where
  indCount : t'.indCount = t.indCount
  options : t'.options = t.options
  dependents : t'.dependents.length = t.dependents.length

theorem HandsOn.trans (h : t.HandsOn t₁) (h' : t₁.HandsOn t') : t.HandsOn t' :=
  ⟨h'.indCount.trans h.indCount, h'.options.trans h.options, h'.dependents.trans h.dependents⟩

theorem handsOn_of_rebuild {actions : List (Action V)} (h : t.rebuild actions = .ok t') :
    t.HandsOn t' := by
  obtain ⟨hind, hoptions⟩ := rebuild_inherits h
  refine ⟨hind, hoptions, ?_⟩
  obtain ⟨-, b, -, hfinish⟩ := rebuild_eq_ok_iff.mp h
  obtain ⟨ds, hds, hset⟩ := Rebuild.finish?_eq_some_iff.mp hfinish
  obtain ⟨-, rfl⟩ := setDependents?_eq_some_iff.mp hset
  exact length_of_mapM_some hds

variable {r : Registry V}

theorem handsOn_of_dropDead (h : t.dropDead r = .ok t') : t.HandsOn t' := by
  obtain ⟨_, hrebuild⟩ := exists_rebuild_of_dropDead h
  exact handsOn_of_rebuild hrebuild

variable [Scalar V]

theorem handsOn_of_foldConstants (h : t.foldConstants r = .ok t') : t.HandsOn t' := by
  obtain ⟨_, hrebuild⟩ := exists_rebuild_of_foldConstants h
  exact handsOn_of_rebuild hrebuild

variable [DecidableEq V]

theorem handsOn_of_mergeEqual (h : t.mergeEqual = .ok t') : t.HandsOn t' := by
  obtain ⟨_, m, deps, hwalk, hdeps, rfl⟩ := mergeEqual_eq_ok_iff.mp h
  exact ⟨hwalk.inherits.1, hwalk.inherits.2, length_of_mapM_some (mapM_dependents hdeps)⟩

/-- One of the passes, alone or in a row, makes `t'` of `t`. -/
inductive PassesTo (r : Registry V) (t t' : Tape V) : Prop
  | dropDead (h : t.dropDead r = .ok t')
  | mergeEqual (h : t.mergeEqual = .ok t')
  | foldConstants (h : t.foldConstants r = .ok t')
  | fuseSums (h : t.fuseSums = .ok t')
  | deduplicate (h : t.deduplicate r = .ok t')
  | optimize (h : t.optimize r = .ok t')

theorem PassesTo.handsOn (h : t.PassesTo r t') : t.HandsOn t' := by
  cases h with
  | dropDead h => exact handsOn_of_dropDead h
  | mergeEqual h => exact handsOn_of_mergeEqual h
  | foldConstants h => exact handsOn_of_foldConstants h
  | fuseSums h => exact handsOn_of_rebuild h
  | deduplicate h =>
    obtain ⟨merged, hmerge, hdrop⟩ := deduplicate_eq_ok_iff.mp h
    exact (handsOn_of_mergeEqual hmerge).trans (handsOn_of_dropDead hdrop)
  | optimize h =>
    obtain ⟨folded, hfold, merged, hmerge, fused, hfuse, hdrop⟩ := optimize_eq_ok_iff.mp h
    have hfirst := (handsOn_of_foldConstants hfold).trans (handsOn_of_mergeEqual hmerge)
    have hlast := (handsOn_of_rebuild hfuse).trans (handsOn_of_dropDead hdrop)
    exact hfirst.trans hlast

theorem PassesTo.reachable (h : t.PassesTo r t') (ht : t.Reachable) : t'.Reachable := by
  cases h with
  | dropDead h => exact ht.dropDead h
  | mergeEqual h => exact ht.mergeEqual h
  | foldConstants h => exact ht.foldConstants h
  | fuseSums h => exact ht.fuseSums h
  | deduplicate h => exact ht.deduplicate h
  | optimize h => exact ht.optimize h

end OpTape.Tape
