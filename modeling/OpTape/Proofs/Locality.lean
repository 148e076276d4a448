import OpTape.Proofs.DeadCode
import OpTape.Proofs.InPlace
import OpTape.Proofs.KnownValues
import OpTape.Proofs.References
/-
  A tape depends on the registry entries that it refers to and on no others. Where two registries
  agree on the reference of a usage, evaluation, the sweep for dead code and the folding walk do
  the same with it (`Usage.effect_of_agrees`, `Live.visit_of_agrees`, `Known.visit_of_agrees`), so
  they do the same with a tape. For dead code elimination it is enough to agree on what its result
  refers to (`Tape.dropDead_of_kept`): a function that only dropped usages name is never asked.
-/
namespace OpTape

variable {V : Type} {r r' : Registry V}

/-! ## Agreeing registries answer alike -/

namespace Registry

variable {family : Family} {id : Nat}

theorem AgreesAt.get_eq (h : r.AgreesAt r' (.foreign family id)) :
    r'.get family id = r.get family id := by
  have hentry : r'.entry? family id = r.entry? family id := h
  unfold get
  rw [hentry]

theorem AgreesAt.getDiscrete_eq (h : r.AgreesAt r' (.discrete id)) :
    r'.getDiscrete id = r.getDiscrete id := by
  have hentry : r'.discretes[id]? = r.discretes[id]? := h
  unfold getDiscrete
  rw [hentry]

theorem AgreesAt.apply_eq (h : r.AgreesAt r' (.foreign family id)) (callId : Nat)
    (inputs : List V) (n : Nat) :
    r'.apply family id callId inputs n = r.apply family id callId inputs n := by
  unfold apply
  rw [h.get_eq]

theorem AgreesAt.dependence_eq (h : r.AgreesAt r' (.foreign family id)) (callId : Nat)
    (needed : List Bool) (inputCount : Nat) :
    r'.dependence family id callId needed inputCount
      = r.dependence family id callId needed inputCount := by
  unfold dependence
  rw [h.get_eq]

theorem AgreesAt.constancy_eq (h : r.AgreesAt r' (.foreign family id)) (callId : Nat)
    (constant : List Bool) (n : Nat) :
    r'.constancy family id callId constant n = r.constancy family id callId constant n := by
  unfold constancy
  rw [h.get_eq]

/-- The registries agree on all that the usage asks for. -/
def AgreesFor (r r' : Registry V) (u : Usage V) : Prop := ∀ ref ∈ u.reference?, r.AgreesAt r' ref

/-- The registries agree on all that the tape refers to. -/
def AgreesOn (r r' : Registry V) (t : Tape V) : Prop := ∀ ref ∈ t.references, r.AgreesAt r' ref

theorem AgreesOn.agreesFor {t : Tape V} (h : r.AgreesOn r' t) {u : Usage V}
    (hu : u ∈ t.body.toList) : r.AgreesFor r' u :=
  fun ref href => h ref (List.mem_filterMap.mpr ⟨u, hu, href⟩)

end Registry

open Registry

/-! ## Evaluation -/

section

variable [Scalar V]

theorem Usage.compute_of_agrees {u : Usage V} (h : r.AgreesFor r' u)
    (value : Nat → Except (Fault V) V) : u.compute r' value = u.compute r value := by
  cases u with
  | discrete id x => simp only [compute, (h _ rfl).getDiscrete_eq]
  | foreign family id callId n inputs => simp only [compute, (h _ rfl).apply_eq]
  | _ => rfl

theorem Usage.effect_of_agrees {u : Usage V} (h : r.AgreesFor r' u) (values : Array V)
    (vectors : Array (Array V)) : u.effect r' values vectors = u.effect r values vectors := by
  cases u with
  | compare | vector | load | store | print => rfl
  | _ => exact congrArg (Except.map Effect.results) (compute_of_agrees h (entry values))

theorem State.run_of_agrees (s : State V) {plan : List (Usage V × (List V → String))}
    (h : ∀ step ∈ plan, r.AgreesFor r' step.1) : s.run r' plan = s.run r plan := by
  induction plan generalizing s with
  | nil => rfl
  | cons step rest ih =>
    obtain ⟨u, note⟩ := step
    have hstep : s.step r' u note = s.step r u note := by
      unfold State.step
      rw [Usage.effect_of_agrees (h _ List.mem_cons_self)]
    rw [State.run, State.run, hstep]
    congr 1
    funext s'
    exact ih s' fun later hlater => h later (List.mem_cons_of_mem _ hlater)

theorem Tape.evaluate_of_agrees {t : Tape V} (h : r.AgreesOn r' t) (traced : Bool)
    (initial : Array V) : t.evaluate r' traced initial = t.evaluate r traced initial := by
  by_cases hsize : initial.size = t.valueCount
  · have hplan : ∀ step ∈ t.noted traced, r.AgreesFor r' step.1 := by
      intro step hstep
      have hmem : step.1 ∈ t.usages := t.map_fst_noted traced ▸ List.mem_map_of_mem hstep
      rcases List.mem_cons.mp hmem with hzero | hmem
      · rw [hzero]
        rintro _ ⟨⟩
      · exact h.agreesFor hmem
    rw [evaluate_eq r' traced hsize, evaluate_eq r traced hsize, State.run_of_agrees _ hplan]
  · simp only [evaluate, if_neg hsize]

end

/-! ## Dropping dead code -/

namespace Live

variable {options : Options} {zeroIndex : Nat} {p : Place}

theorem unsupported_of_agrees {family : Family} {id : Nat}
    (h : r.AgreesAt r' (.foreign family id)) (callId : Nat) (needed reads : List Bool)
    (results : List Nat) : unsupported r' family id callId needed reads results
      = unsupported r family id callId needed reads results := by
  induction results with
  | nil => rfl
  | cons j rest ih => rw [unsupported, unsupported, h.dependence_eq, ih]

theorem inputsRead_of_agrees {family : Family} {id : Nat}
    (h : r.AgreesAt r' (.foreign family id)) (options : Options) (callId : Nat)
    (needed : List Bool) (inputCount : Nat) :
    inputsRead r' options family id callId needed inputCount
      = inputsRead r options family id callId needed inputCount := by
  have hentry : r'.entry? family id = r.entry? family id := h
  simp only [inputsRead, h.dependence_eq, unsupported_of_agrees h, hentry]

theorem visit_of_agrees (live : Live) {u : Usage V} (h : r.AgreesFor r' u) :
    live.visit r' options zeroIndex p u = live.visit r options zeroIndex p u := by
  cases u with
  | foreign family id callId n inputs => simp only [visit, inputsRead_of_agrees (h _ rfl)]
  | _ => rfl

/-- A usage is dropped without asking for anything. -/
theorem visit_of_drop {live before : Live} {u : Usage V}
    (h : live.visit r options zeroIndex p u = .ok (before, .drop)) (r' : Registry V) :
    live.visit r' options zeroIndex p u = .ok (before, .drop) := by
  cases u with
  | foreign family id callId n inputs =>
    simp only [visit] at h ⊢
    split at h
    · obtain ⟨reads, -, h⟩ := bind_eq_ok_iff.mp h
      cases h
    · rename_i hneeded
      rw [if_neg hneeded]
      exact h
  | _ => exact h

theorem sweep_of_agrees (behind : Live) {us : List (Usage V)} (h : ∀ u ∈ us, r.AgreesFor r' u) :
    sweep r' options zeroIndex behind p us = sweep r options zeroIndex behind p us := by
  induction us generalizing p with
  | nil => rfl
  | cons u rest ih =>
    rw [sweep, sweep, ih fun v hv => h v (List.mem_cons_of_mem u hv)]
    simp only [visit_of_agrees _ (h u List.mem_cons_self)]

/-- A sweep goes the same way as soon as the registries agree for the usages that it keeps. -/
theorem sweep_of_kept {behind before : Live} {us : List (Usage V)} {actions : List (Action V)}
    (hsweep : sweep r options zeroIndex behind p us = .ok (before, actions))
    (h : ∀ step ∈ us.zip actions, step.2 ≠ .drop → r.AgreesFor r' step.1) :
    sweep r' options zeroIndex behind p us = .ok (before, actions) := by
  induction us generalizing p before actions with
  | nil => exact hsweep
  | cons u rest ih =>
    cases actions with
    | nil => simpa using length_of_sweep hsweep
    | cons action actions =>
      obtain ⟨live, hrest, hvisit⟩ := sweep_cons_eq_ok hsweep
      have hrest' := ih hrest fun step hstep => h step (List.mem_cons_of_mem _ hstep)
      have hvisit' : live.visit r' options zeroIndex p u = .ok (before, action) := by
        by_cases hdrop : action = .drop
        · subst hdrop
          exact visit_of_drop hvisit r'
        · rw [visit_of_agrees live (h _ List.mem_cons_self hdrop)]
          exact hvisit
      simp only [sweep, bind_eq_ok_iff]
      exact ⟨_, hrest', _, hvisit', rfl⟩

/-- A sweep drops usages, records them again or binds some of their inputs. -/
theorem action_of_sweep {behind before : Live} {us : List (Usage V)} {actions : List (Action V)}
    (hsweep : sweep r options zeroIndex behind p us = .ok (before, actions)) :
    ∀ step ∈ us.zip actions,
      step.2 = .drop ∨ step.2 = .copy ∨ ∃ needed, step.2 = .rebind needed := by
  induction us generalizing p before actions with
  | nil =>
    intro step hstep
    cases hstep
  | cons u rest ih =>
    cases actions with
    | nil => simp
    | cons action actions =>
      obtain ⟨live, hrest, hvisit⟩ := sweep_cons_eq_ok hsweep
      intro step hstep
      rcases List.mem_cons.mp hstep with rfl | hstep
      · cases visited_of_visit hvisit with
        | drop => exact Or.inl rfl
        | copy => exact Or.inr (Or.inl rfl)
        | rebind => exact Or.inr (Or.inr ⟨_, rfl⟩)
      · exact ih hrest step hstep

end Live

namespace Tape

variable {t t' : Tape V}

theorem dropDead_of_agrees (h : r.AgreesOn r' t) : t.dropDead r' = t.dropDead r := by
  unfold dropDead liveness
  rw [Live.sweep_of_agrees _ fun u hu => h.agreesFor hu]

/-- Dropping dead code has the same result in every registry that agrees on what this result
refers to: a usage that asks for anything else was dropped, and nobody asked for it. -/
theorem dropDead_of_kept (hdrop : t.dropDead r = .ok t') (h : r.AgreesOn r' t') :
    t.dropDead r' = .ok t' := by
  obtain ⟨live, actions, hsweep, hrebuild⟩ := dropDead_eq_ok hdrop
  have hkept : ∀ step ∈ t.body.toList.zip actions, step.2 ≠ .drop → r.AgreesFor r' step.1 := by
    intro step hstep hne ref href
    have hagain := (Live.action_of_sweep hsweep step hstep).resolve_left hne
    exact h ref (references_kept_of_rebuild hrebuild hstep hagain href)
  exact bind_eq_ok_iff.mpr ⟨_, Live.sweep_of_kept hsweep hkept, hrebuild⟩

end Tape

/-! ## Folding constants -/

section

variable [Scalar V]

namespace Known

theorem visit_of_agrees (known : Known V) {u : Usage V} (h : r.AgreesFor r' u) :
    known.visit r' u = known.visit r u := by
  cases u with
  | constant | compare | select | print | vector | load | store => rfl
  | foreign family id callId n inputs =>
    simp only [visit, (h _ rfl).constancy_eq, Usage.compute_of_agrees h]
  | unary | binary | discrete | sum => simp only [visit, Usage.compute_of_agrees h]

theorem walk_of_agrees (known : Known V) {us : List (Usage V)} (h : ∀ u ∈ us, r.AgreesFor r' u) :
    walk r' known us = walk r known us := by
  induction us generalizing known with
  | nil => rfl
  | cons u rest ih =>
    have hrest (known : Known V) : walk r' known rest = walk r known rest :=
      ih known fun v hv => h v (List.mem_cons_of_mem u hv)
    simp only [walk, visit_of_agrees known (h u List.mem_cons_self), hrest]

end Known

namespace Tape

variable {t t' : Tape V}

theorem foldConstants_of_agrees (h : r.AgreesOn r' t) :
    t.foldConstants r' = t.foldConstants r := by
  unfold foldConstants
  rw [Known.walk_of_agrees _ fun u hu => h.agreesFor hu]

/-! ## Passes in a row -/

variable [DecidableEq V]

theorem deduplicate_of_agrees (h : r.AgreesOn r' t) : t.deduplicate r' = t.deduplicate r := by
  refine bind_congr_of_ok fun merged hmerge => dropDead_of_agrees ?_
  rw [AgreesOn, references_of_mergeEqual hmerge]
  exact h

theorem optimize_of_agrees (h : r.AgreesOn r' t) : t.optimize r' = t.optimize r := by
  unfold optimize
  rw [foldConstants_of_agrees h]
  refine bind_congr_of_ok fun folded hfold => bind_congr_of_ok fun merged hmerge =>
    bind_congr_of_ok fun fused hfuse => ?_
  rw [mapError_eq_ok_iff] at hfold hmerge hfuse
  have hfused : r.AgreesOn r' fused := by
    intro ref href
    have hmerged := references_of_rebuild hfuse href
    rw [references_of_mergeEqual hmerge] at hmerged
    exact h ref (references_of_foldConstants hfold hmerged)
  rw [dropDead_of_agrees hfused]

/-- Changes to a registry do not reach a tape whose references they spare: evaluations and passes
have the same outcome as before, whatever it is. Merging and fusing alone take no registry. Behind
a successful elimination of dead code only the references of its result matter. Changes that spare
just these leave the elimination and all evaluations of its result as they were. -/
theorem unaffected_by_changes (t : Tape V) (r : Registry V) (changes : List (Registry.Change V))
    (hids : ∀ ref ∈ t.references, r.HandsOut ref)
    (hspares : ∀ ref ∈ t.references, ∀ c ∈ changes, c.spares ref = true) :
    (∀ traced initial,
      t.evaluate (r.after changes) traced initial = t.evaluate r traced initial) ∧
    t.dropDead (r.after changes) = t.dropDead r ∧
    t.foldConstants (r.after changes) = t.foldConstants r ∧
    t.deduplicate (r.after changes) = t.deduplicate r ∧
    t.optimize (r.after changes) = t.optimize r ∧
    ∀ t', t.dropDead r = .ok t' → ∀ more : List (Registry.Change V),
      (∀ ref ∈ t'.references, ∀ c ∈ more, c.spares ref = true) →
      t.dropDead ((r.after changes).after more) = .ok t' ∧
      ∀ traced initial, t'.evaluate ((r.after changes).after more) traced initial
        = t'.evaluate r traced initial := by
  have hagrees : r.AgreesOn (r.after changes) t :=
    fun ref href => agreesAt_after (hids ref href) (hspares ref href)
  refine ⟨evaluate_of_agrees hagrees, dropDead_of_agrees hagrees, foldConstants_of_agrees hagrees,
    deduplicate_of_agrees hagrees, optimize_of_agrees hagrees, fun t' hdrop more hmore => ?_⟩
  have hkept : r.AgreesOn ((r.after changes).after more) t' := by
    intro ref href
    have hold := references_of_dropDead hdrop href
    have hfirst := hagrees ref hold
    exact hfirst.trans (agreesAt_after (hfirst.handsOut (hids ref hold)) (hmore ref href))
  exact ⟨dropDead_of_kept hdrop hkept, evaluate_of_agrees hkept⟩

end Tape

end

/-- Two calls, a map and a discrete function. -/
def Registry.lending : Registry Float where
  calls := #[.live .first, .live .first]
  maps := #[.live .first]
  discretes := #[{ name := "sign", apply := Scalar.unary .sign }]

namespace Tape

/-- A call whose result goes through the discrete function, and a map that nothing reads. -/
def borrowing : Tape Float :=
  let read := ((new 1 {}).push (.foreign .call 0 0 1 [0])).push (.foreign .map 0 0 1 [0])
  { read.push (.discrete 0 2) with deps := some [4] }

/-- What is left without the map. -/
def borrowingLess : Tape Float :=
  { ((new 1 {}).push (.foreign .call 0 0 1 [0])).push (.discrete 0 2) with deps := some [3] }

/-- The second call goes while the map is on the tape, and then the map, which shares its id with
the first call. -/
theorem unaffected_by_changes_borrowing :
    let early : List (Registry.Change Float) := [.delete .call 1, .register .map .first]
    let late : List (Registry.Change Float) := [.delete .map 0]
    (∀ ref ∈ borrowing.references, Registry.lending.HandsOut ref) ∧
    (∀ ref ∈ borrowing.references, ∀ c ∈ early, c.spares ref = true) ∧
    (∀ ref ∈ borrowingLess.references, ∀ c ∈ late, c.spares ref = true) ∧
    borrowing.dropDead Registry.lending = .ok borrowingLess ∧
    borrowing.dropDead ((Registry.lending.after early).after late) = .ok borrowingLess ∧
    ∀ x : Float,
      borrowingLess.evaluate ((Registry.lending.after early).after late) false #[x, 0, 0, 0]
        = borrowingLess.evaluate Registry.lending false #[x, 0, 0, 0] := by
  intro early late
  have hids : ∀ ref ∈ borrowing.references, Registry.lending.HandsOut ref := by decide
  have hearly : ∀ ref ∈ borrowing.references, ∀ c ∈ early, c.spares ref = true := by decide
  have hlate : ∀ ref ∈ borrowingLess.references, ∀ c ∈ late, c.spares ref = true := by decide
  have hdrop : borrowing.dropDead Registry.lending = .ok borrowingLess := by
    with_unfolding_all rfl
  obtain ⟨-, -, -, -, -, hlocal⟩ :=
    unaffected_by_changes borrowing Registry.lending early hids hearly
  obtain ⟨hagain, hsame⟩ := hlocal borrowingLess hdrop late hlate
  exact ⟨hids, hearly, hlate, hdrop, hagain, fun x => hsame false #[x, 0, 0, 0]⟩

end Tape

end OpTape
