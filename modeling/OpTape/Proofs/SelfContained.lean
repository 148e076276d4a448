import OpTape.Proofs.InPlace
import OpTape.Proofs.PassFaults
/-
  Tapes that need neither registered functions nor dynamic vectors. On such a tape only an index
  that does not exist could fail, and a tape in order has none: it evaluates at every input of the
  right length, and every pass succeeds on it. A pass copies usages or puts constants and sums in
  their place, so what it makes is such a tape again.
-/
namespace OpTape

variable {V : Type}

/-- A usage of this kind needs nothing but its operands. -/
def Kind.isSelfContained : Kind → Bool
  | discrete | vector | load | store | foreign _ => false
  | _ => true

namespace Usage

variable [Scalar V]

/-- A usage that needs only its operands has an effect where these exist. -/
theorem exists_effect {u : Usage V} (hu : u.kind.isSelfContained) (r : Registry V)
    {values : Array V} (vectors : Array (Array V)) (hreads : ∀ i ∈ u.reads, i < values.size) :
    ∃ e, u.effect r values vectors = .ok e := by
  have hentry {i : Nat} (hi : i ∈ u.reads) :
      ∃ v, (entry values i : Except (Fault V) V) = .ok v :=
    ⟨_, entry_eq_ok_iff.mpr (Array.getElem?_eq_getElem (hreads i hi))⟩
  have hpure (hu : u.isPure) (href : u.reference? = none) :
      ∃ e, u.effect r values vectors = .ok e := by
    cases hresult : u.compute r (entry values) with
    | ok vals => exact ⟨.results vals, by rw [effect_of_isPure hu, hresult]; rfl⟩
    | error fault =>
      obtain ⟨ref, hsome, -⟩ := fails_of_compute (fun i hi => hentry hi) hresult
      cases href.symm.trans hsome
  cases u with
  | constant | unary | binary | select | sum => exact hpure rfl rfl
  | compare cmp x y =>
    obtain ⟨a, ha⟩ := hentry (i := x) (by simp [reads, args])
    obtain ⟨b, hb⟩ := hentry (i := y) (by simp [reads, args])
    refine ⟨.compared (cmp.holds a b), ?_⟩
    rw [effect, ha, hb]
    rfl
  | print before after flag x =>
    obtain ⟨a, ha⟩ := hentry (i := x) (by simp [reads, args])
    obtain ⟨c, hc⟩ := hentry (i := flag) (by simp [reads, args])
    refine ⟨.printed (if Scalar.lt Scalar.zero c then before ++ Scalar.text a ++ after else ""), ?_⟩
    simp only [effect, bind_eq_ok_iff]
    refine ⟨a, ha, c, hc, ?_⟩
    split <;> rfl
  | discrete | vector | load | store | foreign => simp [kind, Kind.isSelfContained] at hu

end Usage

/-- Usages that need only their operands are evaluated to the last one. -/
theorem State.exists_run [Scalar V] {noted : List (Usage V × (List V → String))}
    (hkinds : ∀ u ∈ noted.map Prod.fst, u.kind.isSelfContained) (r : Registry V) {s : State V}
    (hfit : Usage.FitAll s.values.size s.vectors.size (noted.map Prod.fst)) :
    ∃ s', s.run r noted = .ok s' := by
  induction noted generalizing s with
  | nil => exact ⟨s, rfl⟩
  | cons step noted ih =>
    obtain ⟨u, note⟩ := step
    obtain ⟨hfits, hrest⟩ := hfit
    obtain ⟨e, he⟩ := Usage.exists_effect (hkinds u List.mem_cons_self) r s.vectors hfits.1
    obtain ⟨s₁, hstep⟩ : ∃ s₁, s.step r u note = .ok s₁ := ⟨_, by rw [step, he]⟩
    obtain ⟨hvalues, hvectors⟩ := counts_of_step hstep
    obtain ⟨s', hrun⟩ := ih (s := s₁) (fun v hv => hkinds v (List.mem_cons_of_mem u hv))
      (by rwa [hvalues, hvectors])
    exact ⟨s', bind_eq_ok_iff.mpr ⟨s₁, hstep, hrun⟩⟩

namespace Tape

/-- The recorded usages need nothing but their operands. -/
def StandsAlone (t : Tape V) : Prop := ∀ u ∈ t.body.toList, u.kind.isSelfContained

theorem standsAlone_new (n : Nat) (options : Options) : (new n options : Tape V).StandsAlone := by
  intro u hu
  simp [new] at hu

theorem StandsAlone.push {t : Tape V} (ht : t.StandsAlone) {u : Usage V}
    (hu : u.kind.isSelfContained) : (t.push u).StandsAlone := by
  intro v hv
  rw [body_push, Array.toList_push, List.mem_append, List.mem_singleton] at hv
  rcases hv with hv | rfl
  · exact ht v hv
  · exact hu

end Tape

/-! ## What passes make of such tapes -/

namespace Rebuild

variable {b b' : Rebuild V}

theorem standsAlone_withConstants (hb : b.tape.StandsAlone) (values : List (Option V)) :
    (b.withConstants values).tape.StandsAlone := by
  induction values generalizing b with
  | nil => exact hb
  | cons v rest ih =>
    cases v with
    | none => exact ih hb
    | some v => exact ih (hb.push rfl)

theorem Step.standsAlone {u : Usage V} {action : Action V} (h : Step b u action b')
    (hu : u.kind.isSelfContained) (hb : b.tape.StandsAlone) : b'.tape.StandsAlone := by
  have hreplaced {new : Usage V} (hkind : new.kind = u.kind) :
      (b.replaced u new).tape.StandsAlone := by
    rw [replaced, tape_enter, tape_pushed, tape_enterVector]
    exact hb.push (hkind ▸ hu)
  cases h with
  | drop =>
    rw [tape_enter, tape_enterVector]
    exact hb
  | copy hnew _ => exact hreplaced hnew.kind_eq
  | rebind hnew _ =>
    cases u with
    | foreign => simp [Usage.kind, Kind.isSelfContained] at hu
    | _ => exact hreplaced (carry?_eq_some_iff.mp hnew).kind_eq
  | constants => exact standsAlone_withConstants hb _
  | foldResults _ hnew _ =>
    exact standsAlone_withConstants (hb.push (hnew.kind_eq ▸ hu)) _
  | reuse => exact hb
  | sum => exact hb.push rfl

theorem standsAlone_of_run? {plan : List (Usage V × Action V)}
    (hplan : ∀ step ∈ plan, step.1.kind.isSelfContained) (hb : b.tape.StandsAlone)
    (h : b.run? plan = some b') : b'.tape.StandsAlone := by
  induction plan generalizing b with
  | nil =>
    obtain rfl := Option.some.inj h
    exact hb
  | cons step plan ih =>
    obtain ⟨b₁, hstep, hrun⟩ := run?_cons_eq_some_iff.mp h
    exact ih (fun next hnext => hplan next (List.mem_cons_of_mem step hnext))
      (hstep.standsAlone (hplan step List.mem_cons_self) hb) hrun

end Rebuild

namespace Tape

variable {t t' : Tape V}

theorem standsAlone_of_rebuild (ht : t.StandsAlone) {actions : List (Action V)}
    (h : t.rebuild actions = .ok t') : t'.StandsAlone := by
  obtain ⟨-, b, hrun, hfinish⟩ := rebuild_eq_ok_iff.mp h
  obtain ⟨ds, -, hset⟩ := Rebuild.finish?_eq_some_iff.mp hfinish
  obtain ⟨-, rfl⟩ := setDependents?_eq_some_iff.mp hset
  exact Rebuild.standsAlone_of_run? (fun _ hstep => ht _ (List.of_mem_zip hstep).1)
    (standsAlone_new _ _) hrun

theorem standsAlone_of_mergeEqual [Scalar V] [DecidableEq V] (ht : t.StandsAlone)
    (h : t.mergeEqual = .ok t') : t'.StandsAlone := by
  obtain ⟨us', m, deps, hwalk, -, rfl⟩ := mergeEqual_eq_ok_iff.mp h
  intro u hu
  have hmem : u ∈ us' := by
    have hbody : m.tape.body.toList = us' := hwalk.body_eq
    exact hbody ▸ hu
  obtain ⟨v, hv, hkind⟩ : ∃ v ∈ t.body.toList, v.kind = u.kind :=
    List.mem_map.mp (hwalk.map_kind_eq ▸ List.mem_map_of_mem hmem)
  exact hkind ▸ ht v hv

/-- The tape is in order and needs neither registered functions nor dynamic vectors. -/
structure SelfContained (t : Tape V) : Prop where
  wellFormed : t.WellFormed
  standsAlone : t.StandsAlone

namespace SelfContained

variable {r : Registry V}

/-- Such a tape asks a registry for nothing, so none can fail it. -/
theorem not_failsOn (ht : t.SelfContained) {fault : Fault V} : ¬ r.FailsOn t.references fault := by
  rintro ⟨ref, href, -⟩
  obtain ⟨u, hu, href⟩ := List.mem_filterMap.mp href
  have hkind := ht.standsAlone u hu
  cases u with
  | discrete | foreign => simp [Usage.kind, Kind.isSelfContained] at hkind
  | _ => cases href

theorem push (ht : t.SelfContained) {u : Usage V} (hadmits : t.Admits u)
    (hu : u.kind.isSelfContained) : (t.push u).SelfContained :=
  ⟨ht.wellFormed.push hadmits, ht.standsAlone.push hu⟩

theorem setOption (ht : t.SelfContained) {name value : String}
    (h : t.setOption name value = .ok t') : t'.SelfContained := by
  obtain ⟨options, -, heq⟩ := bind_eq_ok_iff.mp h
  obtain rfl := Except.ok.inj heq
  exact ⟨⟨ht.wellFormed.body, ht.wellFormed.dependents⟩, ht.standsAlone⟩

theorem of_rebuild (ht : t.SelfContained) {actions : List (Action V)}
    (h : t.rebuild actions = .ok t') : t'.SelfContained :=
  ⟨rebuild_wellFormed h, standsAlone_of_rebuild ht.standsAlone h⟩

theorem exists_dropDead (ht : t.SelfContained) (r : Registry V) :
    ∃ t', t.dropDead r = .ok t' ∧ t'.SelfContained := by
  cases h : t.dropDead r with
  | error fault => exact absurd (ht.wellFormed.failsOn_of_dropDead h) ht.not_failsOn
  | ok t' =>
    obtain ⟨_, hrebuild⟩ := exists_rebuild_of_dropDead h
    exact ⟨t', rfl, ht.of_rebuild hrebuild⟩

theorem exists_fuseSums (ht : t.SelfContained) : ∃ t', t.fuseSums = .ok t' ∧ t'.SelfContained := by
  obtain ⟨t', h⟩ := ht.wellFormed.exists_fuseSums
  exact ⟨t', h, ht.of_rebuild h⟩

variable [Scalar V]

theorem exists_mergeEqual [DecidableEq V] (ht : t.SelfContained) :
    ∃ t', t.mergeEqual = .ok t' ∧ t'.SelfContained := by
  obtain ⟨t', h⟩ := ht.wellFormed.exists_mergeEqual
  exact ⟨t', h, ht.wellFormed.mergeEqual h, standsAlone_of_mergeEqual ht.standsAlone h⟩

/-- Evaluating succeeds, with a trace and without. -/
theorem exists_answer (ht : t.SelfContained) (r : Registry V) (traced : Bool) {initial : Array V}
    (hsize : initial.size = t.valueCount) :
    ∃ a, (t.evaluate r traced initial).outcome = .ok a := by
  have hkinds : ∀ u ∈ (t.noted traced).map Prod.fst, u.kind.isSelfContained := by
    intro u hu
    rw [map_fst_noted, usages, List.mem_cons] at hu
    rcases hu with rfl | hu
    · rfl
    · exact ht.standsAlone u hu
  obtain ⟨s, hrun⟩ := State.exists_run hkinds r (ht.wellFormed.fitAll_noted traced hsize)
  have hvalues : s.values.size = t.valueCount := by
    rw [State.size_of_run hrun, map_fst_noted, size_firstState traced hsize, resultTotal_usages]
  obtain ⟨ds, hds⟩ : ∃ ds, t.dependents.mapM (entry s.values)
      = (.ok ds : Except (Fault V) (List V)) := by
    refine exists_mapM_ok fun i hi => ⟨_, entry_eq_ok_iff.mpr (Array.getElem?_eq_getElem ?_)⟩
    exact hvalues ▸ ht.wellFormed.dependents i hi
  refine ⟨{ dependents := ds, compareFalse := s.compareFalse }, ?_⟩
  rw [evaluate_eq r traced hsize, hrun]
  simp only [leave, hds]

theorem exists_foldConstants (ht : t.SelfContained) (r : Registry V) :
    ∃ t', t.foldConstants r = .ok t' ∧ t'.SelfContained := by
  cases h : t.foldConstants r with
  | error fault => exact absurd (ht.wellFormed.failsOn_of_foldConstants h) ht.not_failsOn
  | ok t' =>
    obtain ⟨_, hrebuild⟩ := exists_rebuild_of_foldConstants h
    exact ⟨t', rfl, ht.of_rebuild hrebuild⟩

theorem exists_optimize [DecidableEq V] (ht : t.SelfContained) (r : Registry V) :
    ∃ t', t.optimize r = .ok t' ∧ t'.SelfContained := by
  obtain ⟨folded, hfold, hfolded⟩ := ht.exists_foldConstants r
  obtain ⟨merged, hmerge, hmerged⟩ := hfolded.exists_mergeEqual
  obtain ⟨fused, hfuse, hfused⟩ := hmerged.exists_fuseSums
  obtain ⟨t', hdrop, ht'⟩ := hfused.exists_dropDead r
  exact ⟨t', optimize_eq_ok_iff.mpr ⟨folded, hfold, merged, hmerge, fused, hfuse, hdrop⟩, ht'⟩

end SelfContained

end Tape

end OpTape
