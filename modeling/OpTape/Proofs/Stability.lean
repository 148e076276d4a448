import OpTape.Proofs.Refolding
/-
  Folding constants and dropping dead code, once and again. The second folding may put constants
  behind registered functions that it has folded before: dropping dead code has bound more of their
  inputs to zero. Nothing reads such a constant, so the second dropping takes them all away, and
  the tape comes back as it was (`Tape.foldAndDrop_stable`).
-/
namespace OpTape

variable {V : Type} [Scalar V]

namespace Tape

variable {t t' : Tape V} {r : Registry V}

/-- Folds constants and drops what is dead then. -/
def foldAndDrop (t : Tape V) (r : Registry V) : Except (Fault V) (Tape V) := do
  (← t.foldConstants r).dropDead r

theorem foldAndDrop_eq_ok_iff :
    t.foldAndDrop r = .ok t' ↔ ∃ s, t.foldConstants r = .ok s ∧ s.dropDead r = .ok t' :=
  bind_eq_ok_iff

/-- On a tape with nothing to fold and nothing dead, folding and dropping change nothing. -/
theorem KeepsAll.foldAndDrop {live : Live} {actions : List (Action V)} {deps : List Nat}
    (hall : t.KeepsAll r live actions) (ht : t.WellFormed) (hdeps : t.deps = some deps)
    (hfolded : t.Folded r) (hr : r.NeverFails) (hd : r.DerivesConstancy) :
    t.foldAndDrop r = .ok t := by
  obtain ⟨s, value, back, hfold, hpads⟩ := hall.exists_foldConstants ht hfolded hr hd
  obtain ⟨actions', hrebuild⟩ := exists_rebuild_of_foldConstants hfold
  exact foldAndDrop_eq_ok_iff.mpr
    ⟨s, hfold, hall.dropDead_of_pads ht (rebuild_wellFormed hrebuild) hdeps hpads⟩

/-- Folding constants and then dropping dead code is stable: on every tape, doing both again gives
the same tape, where functions never fail, leave it to dependence which results are constant, and
give joint answers for several results. -/
theorem foldAndDrop_stable (hr : r.NeverFails) (hd : r.DerivesConstancy) (hj : r.JoinsAnswers)
    (h : t.foldAndDrop r = .ok t') : t'.foldAndDrop r = .ok t' := by
  obtain ⟨s, hfold, hdrop⟩ := foldAndDrop_eq_ok_iff.mp h
  obtain ⟨actions, hrebuild⟩ := exists_rebuild_of_foldConstants hfold
  have hs : s.WellFormed := rebuild_wellFormed hrebuild
  have hfolded : t'.Folded r := (folded_of_foldConstants hd hfold).dropDead hs hj hdrop
  obtain ⟨live, kept, hall⟩ := hs.keepsAll_of_dropDead hdrop
  obtain ⟨actions', hrebuild'⟩ := exists_rebuild_of_dropDead hdrop
  obtain ⟨ds, hdeps⟩ := rebuild_deps hrebuild'
  exact hall.foldAndDrop (rebuild_wellFormed hrebuild') hdeps hfolded hr hd

end Tape

/-! ## A function that hands on whatever there is -/

/-- Each result is the input at its place, or zero if there is none. -/
def Foreign.relaying : Foreign V where
  name := "relaying"
  apply _ inputs _ := .ok (.ofFn fun j => inputs.getD j Scalar.zero)
  dependence := (passing : Foreign V).dependence

def Registry.relaying : Registry V := only .relaying

theorem Registry.relaying_neverFails : (relaying : Registry V).NeverFails := by
  intro family id f hget
  obtain rfl := get_only hget
  exact ⟨fun _ _ _ => ⟨_, rfl⟩, fun _ _ _ => ⟨_, rfl⟩⟩

theorem Registry.relaying_derivesConstancy : (relaying : Registry V).DerivesConstancy := by
  intro family id f hget
  obtain rfl := get_only hget
  exact fun _ _ _ => rfl

theorem Registry.relaying_joinsAnswers : (relaying : Registry V).JoinsAnswers :=
  only_joinsAnswers (f := .relaying) rfl

namespace Tape

/-- A constant and an independent handed on. -/
def relayed : Tape Float :=
  { ((new 1 {}).push (.constant 2)).push (.foreign .call 0 0 2 [2, 0]) with deps := some [3, 4] }

/-- The first result is a constant now, and the call hands on zero in its place. -/
def relayedOnce : Tape Float :=
  { ((new 1 {}).push (.foreign .call 0 0 2 [1, 0])).push (.constant 2) with deps := some [4, 3] }

/-- The call that hands on zero is folded again, and a constant zero stands behind it. -/
def relayedIdle : Tape Float :=
  { ((((new 1 {}).push (.foreign .call 0 0 2 [1, 0])).push (.constant Scalar.zero)).push
      (.constant 2)) with deps := some [5, 3] }

theorem foldAndDrop_stable_relayed : relayed.Reachable ∧
    (Registry.relaying : Registry Float).NeverFails ∧
    (Registry.relaying : Registry Float).DerivesConstancy ∧
    (Registry.relaying : Registry Float).JoinsAnswers ∧
    relayed.foldAndDrop .relaying = .ok relayedOnce ∧
    relayedOnce.foldConstants .relaying = .ok relayedIdle ∧
    relayedOnce.foldAndDrop .relaying = .ok relayedOnce := by
  have hreachable : relayed.Reachable :=
    (((Reachable.new 1 {}).push (by decide)).push (by decide)).withDependents rfl (by decide)
  have hfirst : relayed.foldAndDrop .relaying = .ok relayedOnce := by with_unfolding_all rfl
  have hfold : relayedOnce.foldConstants .relaying = .ok relayedIdle := by with_unfolding_all rfl
  exact ⟨hreachable, Registry.relaying_neverFails, Registry.relaying_derivesConstancy,
    Registry.relaying_joinsAnswers, hfirst, hfold,
    foldAndDrop_stable Registry.relaying_neverFails Registry.relaying_derivesConstancy
      Registry.relaying_joinsAnswers hfirst⟩

end Tape

end OpTape
