import OpTape.Proofs.Doubles
import OpTape.Proofs.Following
import OpTape.Proofs.KnownValues
import OpTape.Proofs.Reachable
/-
  Folding constants keeps the whole observation, faults included. `Folds` is the invariant of
  the walk beside an old and a new evaluation: what is known is true, and the new state shows
  the old one completely. A usage that folding replaces cannot fail, if functions are right about
  their constant results, so every fault comes from a usage that is copied, and a copy has the
  fault of its usage. Folding itself can only fail in the registry: what it evaluates, an
  evaluation evaluates as well, with defined values in the place of undefined ones
  (`Tape.RefusesUnknown`).
-/
namespace OpTape

variable {V : Type} [Scalar V]

namespace Known

variable {r : Registry V} {known : Known V}

theorem walk_cons_eq_ok {u : Usage V} {us : List (Usage V)} {action : Action V}
    {actions : List (Action V)} (h : walk r known (u :: us) = .ok (action :: actions)) :
    ∃ results, Visited r known u results action ∧
      walk r (known ++ results : Array (Option V)) us = .ok actions := by
  simp only [walk, bind_eq_ok_iff] at h
  obtain ⟨⟨results, action'⟩, hvisit, actions', hrest, h⟩ := h
  obtain ⟨rfl, rfl⟩ := List.cons.inj (Except.ok.inj h)
  exact ⟨results, visited_of_visit hvisit, hrest⟩

theorem length_of_walk {us : List (Usage V)} {actions : List (Action V)}
    (h : walk r known us = .ok actions) : actions.length = us.length := by
  induction us generalizing known actions with
  | nil =>
    obtain rfl := Except.ok.inj h
    rfl
  | cons u us ih =>
    simp only [walk, bind_eq_ok_iff] at h
    obtain ⟨⟨results, action⟩, -, actions', hrest, h⟩ := h
    obtain rfl := Except.ok.inj h
    rw [List.length_cons, List.length_cons, ih hrest]

theorem Visited.suits {u : Usage V} {results : List (Option V)} {action : Action V}
    (h : Visited r known u results action) : action.Suits u := by
  cases h with
  | untouched | constant => exact ⟨fun _ => rfl, by simp, by simp⟩
  | settled | applied | folded => exact ⟨by simp [Usage.startsVector], by simp, by simp⟩
  | chosen => exact ⟨by simp [Usage.startsVector], fun _ _ => rfl, by simp⟩
  | computed hpure =>
    refine ⟨fun hstarts => ?_, by simp, by simp⟩
    cases u <;> simp_all [Usage.startsVector, Usage.isPure]

/-- The invariant of folding beside an old and a new evaluation. -/
def Folds (r : Registry V) (plan : List (Usage V × Action V)) (b : Rebuild V) (s s' : State V) :
    Prop :=
  ∃ known : Known V, walk r known (plan.map Prod.fst) = .ok (plan.map Prod.snd) ∧
    known.Sound s.values ∧ b.KeepsVectors ∧ b.Sim .full s s'

/-- Where the old evaluation gets on, the new one does. -/
theorem Folds.step_ok (hr : r.KeepsConstants) {u : Usage V} {action : Action V}
    {plan : List (Usage V × Action V)} {b b' : Rebuild V} {s s' : State V}
    (h : Folds r ((u, action) :: plan) b s s') (hb : b.Bounded) {x : List V}
    (hs' : b.runs r x = .ok s') (hstep : Rebuild.Step b u action b') {e : Effect V}
    (he : u.effect r s.values s.vectors = .ok e) :
    ∃ s₁', b'.runs r x = .ok s₁' ∧ Folds r plan b' (s.apply e) s₁' := by
  obtain ⟨known, hwalk, hsound, hkeeps, hsim⟩ := h
  obtain ⟨results, hvisited, hrest⟩ := walk_cons_eq_ok hwalk
  have hkeeps' := hstep.keepsVectors hkeeps hvisited.suits.vector
  have hdone {s₁' : State V} (hrun : b'.runs r x = .ok s₁')
      (hsim' : b'.Sim .full (s.apply e) s₁') :
      ∃ s₁', b'.runs r x = .ok s₁' ∧ Folds r plan b' (s.apply e) s₁' := by
    refine ⟨s₁', hrun, _, hrest, ?_, hkeeps', hsim'⟩
    rw [State.values_apply]
    exact hvisited.sound hr hsound he
  cases hvisited with
  | untouched | constant =>
    cases hstep with
    | copy hnew _ =>
      obtain ⟨e', he', hsim'⟩ := hsim.copied hb (.refl _ s) hnew (fun _ _ => trivial)
        (fun _ _ => trivial) (fun _ => rfl) (fun _ => rfl) he
      exact hdone (Rebuild.runs_replaced_of_effect hs' _ he') hsim'
  | @settled cmp y z a c ha hc hheld =>
    cases hstep with
    | drop =>
      obtain rfl := Except.ok.inj (he.symm.trans (hsound.effect_compare r s.vectors cmp ha hc))
      refine hdone (by simpa using hs') ?_
      exact hsim.dropped (.refl _ s) (Usage.isOf_of_effect he) (Or.inl hheld)
  | @chosen cmp y z ifTrue ifFalse a c ha hc =>
    cases hstep with
    | @reuse _ j hj =>
      rw [hsound.effect_select ha hc, map_eq_ok_iff] at he
      obtain ⟨v, hbranch, rfl⟩ := he
      exact hdone hs' (hsim.reused (.refl _ s) trivial hj (entry_eq_ok_iff.mp hbranch))
  | @computed _ vals hu hreads hvals =>
    cases hstep with
    | constants hlength =>
      obtain rfl := Except.ok.inj (he.symm.trans (hsound.effect_pure s.vectors hu hreads hvals))
      exact hdone (Rebuild.runs_withConstants hs' _) (hsim.constants (.refl _ s) _)
  | @applied family id callId n inputs flags y vals hflags hany hy hvals hall =>
    cases hstep with
    | constants hlength =>
      obtain ⟨res, rfl, hsame⟩ := hsound.same_foreign hr hflags hy hvals he
      -- every result is flagged, so the constants are the results
      obtain rfl := eq_of_all hall hsame
      exact hdone (Rebuild.runs_withConstants hs' _) (hsim.constants (.refl _ s) _)
  | @folded family id callId n inputs flags y vals hflags hany hy hvals =>
    cases hstep with
    | @foldResults _ new hlength hnew hadmits =>
      obtain ⟨res, rfl, hsame⟩ := hsound.same_foreign hr hflags hy hvals he
      have he' : new.effect r s'.values s'.vectors = .ok (.results res.toList) := by
        rw [hsim.effect_renamed hkeeps hnew, he]
      have hrun := Rebuild.runs_pushed_of_effect hs' he'
      refine hdone (Rebuild.runs_withConstants hrun _) ?_
      refine (hsim.pushed (Usage.isOf_of_effect he')).enterConstants (.refl _ s)
        (by simp [length_restrict]) (fun k hk => ?_) fun k v hk => ?_
      · rw [State.values_apply, hsim.valueCount, Array.getElem?_append_right (by omega),
          Nat.add_sub_cancel_left]
        exact List.getElem?_toArray ..
      · exact getElem?_of_restrict hsame hk

/-- A usage that folding replaces cannot fail, so a fault of the old evaluation is one of the
new. -/
theorem Folds.step (hr : r.SoundConstancy) {u : Usage V} {action : Action V}
    {plan : List (Usage V × Action V)} {b b' : Rebuild V} {s s' : State V}
    (h : Folds r ((u, action) :: plan) b s s') (hb : b.Bounded) {x : List V}
    (hs' : b.runs r x = .ok s') (hstep : Rebuild.Step b u action b') :
    Follows SameFault (Folds r plan b') (s.exec r u) (b'.runs r x) := by
  cases he : u.effect r s.values s.vectors with
  | ok e =>
    obtain ⟨s₁', hrun, hfolds⟩ := h.step_ok hr.keepsConstants hb hs' hstep he
    exact Rebuild.follows_of_effect he hrun hfolds
  | error fault =>
    obtain ⟨known, hwalk, hsound, hkeeps, hsim⟩ := h
    obtain ⟨results, hvisited, -⟩ := walk_cons_eq_ok hwalk
    have habsurd {e : Effect V} (hok : u.effect r s.values s.vectors = .ok e) : False := by
      cases hok.symm.trans he
    cases hvisited with
    | untouched | constant =>
      cases hstep with
      | copy hnew _ =>
        exact Rebuild.follows_copied hsim hb hkeeps hs' hnew fun hok _ => (habsurd hok).elim
    | settled ha hc _ => exact (habsurd (hsound.effect_compare r s.vectors _ ha hc)).elim
    | @chosen cmp y z ifTrue ifFalse a c ha hc =>
      cases hstep with
      | reuse hj =>
        -- the branch has a new value, so it is a value of the old evaluation
        have hlt : (if cmp.holds a c then ifTrue else ifFalse) < s.values.size :=
          hsim.size_values ▸ Rebuild.lt_of_value? hj
        have hbranch : entry s.values (if cmp.holds a c then ifTrue else ifFalse) =
            (.ok _ : Except (Fault V) V) :=
          entry_eq_ok_iff.mpr (Array.getElem?_eq_getElem hlt)
        rw [hsound.effect_select ha hc, hbranch] at he
        cases he
    | computed hu hreads hvals =>
      exact (habsurd (hsound.effect_pure s.vectors hu hreads hvals)).elim
    | applied hflags hany hy hvals | folded hflags hany hy hvals =>
      obtain ⟨e, hok⟩ := hsound.exists_effect_foreign hr s.vectors hflags hany hy hvals
      exact (habsurd hok).elim

/-! ## Folding succeeds -/

/-- Every constancy query of the walk is answered. -/
def Answered (r : Registry V) : Known V → List (Usage V) → Prop
  | _, [] => True
  | known, u :: rest =>
    (∀ family id callId n inputs, u = .foreign family id callId n inputs →
      ∃ flags, r.constancy family id callId (inputs.map known.isKnown) n = .ok flags) ∧
    ∀ results action, known.visit r u = .ok (results, action) →
      Answered r (known ++ results : Array (Option V)) rest

theorem answered_of_constancy {us : List (Usage V)}
    (h : ∀ family id callId n inputs, .foreign family id callId n inputs ∈ us →
      ∀ constant : List Bool, constant.length = inputs.length →
        ∃ flags, r.constancy family id callId constant n = .ok flags) (known : Known V) :
    Answered r known us := by
  induction us generalizing known with
  | nil => trivial
  | cons u us ih =>
    refine ⟨fun family id callId n inputs hu => ?_, fun _ _ _ => ih (fun _ _ _ _ _ hmem => ?_) _⟩
    · exact h family id callId n inputs (hu ▸ List.mem_cons_self) _ (by simp)
    · exact h _ _ _ _ _ (List.mem_cons_of_mem u hmem)

/-- A call in state `s` is refused when the inputs that are not known are undefined, though some of
its results are constant. -/
def RefusesUnknown (known : Known V) (r : Registry V) (s : State V) (u : Usage V)
    (fault : Fault V) : Prop :=
  ∃ family id callId n inputs flags, u = .foreign family id callId n inputs ∧
    r.constancy family id callId (inputs.map known.isKnown) n = .ok flags ∧
    flags.toList.any (·) ∧ Refuses r s Scalar.nan (inputs.map known.isKnown) u fault

/-- What is known behind some usages. -/
def learn (r : Registry V) (known : Known V) : List (Usage V) → Except (Fault V) (Known V)
  | [] => return known
  | u :: rest => do
    let (results, _) ← known.visit r u
    learn r (known ++ results) rest

/-- A registered function that is answered for, and succeeds in some evaluation, stops the walk
only when it refuses undefined inputs. -/
theorem Sound.visit_foreign_cases {s : State V} (h : known.Sound s.values) {e : Effect V}
    {family : Family} {id callId n : Nat} {inputs : List Nat} {flags : Vector Bool n}
    (hflags : r.constancy family id callId (inputs.map known.isKnown) n = .ok flags)
    (he : (Usage.foreign family id callId n inputs).effect r s.values s.vectors = .ok e) :
    (∃ results action,
      known.visit r (.foreign family id callId n inputs) = .ok (results, action)) ∨
    ∃ fault, known.visit r (.foreign family id callId n inputs) = .error fault ∧
      known.RefusesUnknown r s (.foreign family id callId n inputs) fault := by
  obtain ⟨y, res, hy, hres, -⟩ := Usage.effect_foreign_eq_ok he
  have hx := h.mapM_operand hy
  by_cases hany : flags.toList.any (·) = true
  · cases happly : r.apply family id callId
        (substituted Scalar.nan (inputs.map known.isKnown) y) n with
    | ok res' =>
      have hcomputed : (Usage.foreign family id callId n inputs).compute r known.operand
          = .ok res'.toList := by
        simp only [Usage.compute, bind_eq_ok_iff]
        exact ⟨_, hx, res', happly, rfl⟩
      left
      simp only [visit, bind_eq_ok_iff]
      by_cases hall : flags.toList.all (·) = true
      · refine ⟨restrict flags.toList res'.toList, .constants res'.toList, flags, hflags, ?_⟩
        rw [if_pos hany, hcomputed]
        exact if_pos hall
      · refine ⟨restrict flags.toList res'.toList,
          .foldResults (restrict flags.toList res'.toList), flags, hflags, ?_⟩
        rw [if_pos hany, hcomputed]
        exact if_neg hall
    | error fault =>
      have hcomputed : (Usage.foreign family id callId n inputs).compute r known.operand
          = .error fault := by
        simp only [Usage.compute, bind_eq_error_iff]
        exact Or.inr ⟨_, hx, Or.inl happly⟩
      refine Or.inr ⟨fault, ?_, _, _, _, _, _, flags, rfl, hflags, hany,
        refuses_of_apply hy hres happly⟩
      refine bind_eq_error_iff.mpr (Or.inr ⟨flags, hflags, ?_⟩)
      rw [if_pos hany]
      exact bind_eq_error_iff.mpr (Or.inl hcomputed)
  · left
    simp only [visit, bind_eq_ok_iff]
    refine ⟨List.replicate n none, .copy, flags, hflags, ?_⟩
    rw [if_neg hany]
    rfl

/-- The walk can decide on a usage that succeeds in some evaluation, unless it is refused. -/
theorem Sound.visit_cases {s : State V} (h : known.Sound s.values) {u : Usage V} {e : Effect V}
    (he : u.effect r s.values s.vectors = .ok e)
    (hflags : ∀ family id callId n inputs, u = .foreign family id callId n inputs →
      ∃ flags, r.constancy family id callId (inputs.map known.isKnown) n = .ok flags) :
    (∃ results action, known.visit r u = .ok (results, action)) ∨
    ∃ fault, known.visit r u = .error fault ∧ known.RefusesUnknown r s u fault := by
  have hplain {w : Usage V} (hw : w.isPlain) (he : w.effect r s.values s.vectors = .ok e) :
      ∃ results action, known.visit r w = .ok (results, action) := by
    rw [Usage.effect_of_isPure (Usage.isPure_of_isPlain hw), map_eq_ok_iff] at he
    obtain ⟨vals, hvals, -⟩ := he
    rw [visit_of_isPlain hw]
    split
    · rename_i hall
      have hsame : w.compute r known.operand = .ok vals := by
        rw [← hvals]
        refine w.compute_congr r fun i hi => ?_
        obtain ⟨v, hv⟩ := Option.isSome_iff_exists.mp (List.all_eq_true.mp hall i hi)
        exact h.operand_eq hv
      rw [hsame]
      exact ⟨_, _, rfl⟩
    · exact ⟨_, _, rfl⟩
  cases u with
  | constant v => exact Or.inl ⟨_, _, rfl⟩
  | compare cmp x y =>
    left
    simp only [visit]
    split <;> exact ⟨_, _, rfl⟩
  | select cmp x y ifTrue ifFalse =>
    left
    simp only [visit]
    split <;> exact ⟨_, _, rfl⟩
  | print | vector | load | store => exact Or.inl ⟨_, _, rfl⟩
  | unary | binary | discrete | sum => exact Or.inl (hplain rfl he)
  | foreign family id callId n inputs =>
    obtain ⟨flags, hflags⟩ := hflags family id callId n inputs rfl
    exact h.visit_foreign_cases hflags he

/-- The walk goes as far as an evaluation does, or to a call that is refused. -/
theorem Sound.walk_cases (hr : r.KeepsConstants) {us : List (Usage V)} {s s' : State V}
    (h : known.Sound s.values) (hanswered : Answered r known us)
    (hrun : s.execAll r us = .ok s') :
    (∃ actions, walk r known us = .ok actions) ∨
    ∃ fault before u behind s₁ known₁, walk r known us = .error fault ∧
      us = before ++ u :: behind ∧ s.execAll r before = .ok s₁ ∧
      learn r known before = .ok known₁ ∧ known₁.RefusesUnknown r s₁ u fault := by
  induction us generalizing known s with
  | nil => exact Or.inl ⟨[], rfl⟩
  | cons u us ih =>
    obtain ⟨s₁, hexec, hrest⟩ := bind_eq_ok_iff.mp (State.execAll_cons r s u us ▸ hrun)
    obtain ⟨e, he, rfl⟩ := State.exec_eq_ok_iff.mp hexec
    rcases h.visit_cases he hanswered.1 with ⟨results, action, hvisit⟩ | ⟨fault, hvisit, hrefuses⟩
    · have hsound : Known.Sound (known ++ results : Array (Option V)) (s.apply e).values := by
        rw [State.values_apply]
        exact (visited_of_visit hvisit).sound hr h he
      rcases ih hsound (hanswered.2 _ _ hvisit) hrest with ⟨actions, hactions⟩ |
        ⟨fault, before, w, behind, s₂, known₂, hwalk, rfl, hbefore, hlearn, hrefuses⟩
      · left
        refine ⟨action :: actions, ?_⟩
        simp only [walk, bind_eq_ok_iff]
        exact ⟨_, hvisit, actions, hactions, rfl⟩
      · refine Or.inr ⟨fault, u :: before, w, behind, s₂, known₂, ?_, rfl, ?_, ?_, hrefuses⟩
        · exact bind_eq_error_iff.mpr (Or.inr ⟨_, hvisit, bind_eq_error_iff.mpr (Or.inl hwalk)⟩)
        · exact bind_eq_ok_iff.mpr ⟨_, hexec, hbefore⟩
        · exact bind_eq_ok_iff.mpr ⟨_, hvisit, hlearn⟩
    · exact Or.inr ⟨fault, [], u, us, s, known, bind_eq_error_iff.mpr (Or.inl hvisit), rfl, rfl,
        rfl, hrefuses⟩

/-- The invariant that lets folding carry out every action: nothing is ever dropped that is
still read. -/
def Foldable (r : Registry V) (count : Nat) (plan : List (Usage V × Action V)) (b : Rebuild V) :
    Prop :=
  Rebuild.Ready count b (plan.map Prod.fst) ∧ b.Total ∧
    ∃ known, walk r known (plan.map Prod.fst) = .ok (plan.map Prod.snd)

theorem Foldable.step {count : Nat} {u : Usage V} {action : Action V}
    {plan : List (Usage V × Action V)} {b : Rebuild V}
    (h : Foldable r count ((u, action) :: plan) b) (hb : b.Bounded) :
    ∃ b', Rebuild.Step b u action b' ∧ Foldable r count plan b' := by
  obtain ⟨hready, htotal, known, hwalk⟩ := h
  obtain ⟨results, hvisited, hrest⟩ := walk_cons_eq_ok hwalk
  have hsuits := hvisited.suits
  have hvalue : ∀ i ∈ u.reads, ∃ j, b.value? i = some j := fun i hi =>
    htotal i (hready.fit.1.1 i hi)
  obtain ⟨new, hnew, hadmits⟩ := Rebuild.exists_carried hb hvalue fun w hw => hready.vector hw
  have hdrop : action = .drop → u.resultCount = 0 := by
    rintro rfl
    cases hvisited
    rfl
  obtain ⟨b', hb'⟩ : ∃ b', Rebuild.Step b u action b' := by
    cases hvisited with
    | untouched | constant => exact ⟨_, .copy hnew hadmits⟩
    | settled => exact ⟨_, .drop⟩
    | @chosen cmp x y ifTrue ifFalse a c ha hc =>
      obtain ⟨j, hj⟩ := hvalue (if cmp.holds a c then ifTrue else ifFalse) (by
        cases cmp.holds a c <;> simp [Usage.reads, Usage.args])
      exact ⟨_, .reuse hj⟩
    | computed hu _ hvals => exact ⟨_, .constants (Usage.length_of_compute hu hvals)⟩
    | @applied family id callId n inputs flags x vals _ _ _ _ _ =>
      exact ⟨_, .constants vals.length_toList⟩
    | folded => exact ⟨_, .foldResults (length_restrict _ _) hnew hadmits⟩
  exact ⟨b', hb', hready.step hb' hsuits, hb'.total htotal hdrop, _, hrest⟩

end Known

namespace Tape

variable {r : Registry V} {t t' : Tape V}

theorem sound_firstKnown (t : Tape V) {x : List V} (hx : x.length = t.indCount) :
    t.firstKnown.Sound (State.start x).values where
  size := by simp [firstKnown, State.start, hx]
  value {i v} hv := by
    have hknown : (t.firstKnown)[i]? = some (some v) := Option.join_eq_some_iff.mp hv
    rw [firstKnown, Array.getElem?_push] at hknown
    split at hknown
    · rename_i heq
      obtain rfl : Scalar.zero = v := by simpa using hknown
      simp [State.start, heq, hx]
    · simp [Array.getElem?_replicate] at hknown

/-- Every constancy query of folding is answered. -/
def ConstancyAnswered (t : Tape V) (r : Registry V) : Prop :=
  Known.Answered r t.firstKnown t.body.toList

/-- An evaluation at `x` comes to a call with constant results that is refused when the inputs that
do not depend on constants alone are undefined. -/
def RefusesUnknown (t : Tape V) (r : Registry V) (x : List V) (fault : Fault V) : Prop :=
  ∃ before u behind s known, t.body.toList = before ++ u :: behind ∧
    (State.start x).execAll r before = .ok s ∧
    Known.learn r t.firstKnown before = .ok known ∧ known.RefusesUnknown r s u fault

/-- Where functions are right about their constant results, they refuse no undefined inputs. -/
theorem not_refusesUnknown (hr : r.SoundConstancy) {x : List V} {fault : Fault V} :
    ¬ t.RefusesUnknown r x fault := by
  rintro ⟨-, -, -, s, known, -, -, -, family, id, callId, n, inputs, flags, rfl, hflags, hany,
    hrefuses⟩
  obtain ⟨v, hv, hnot⟩ := hrefuses.not_sameOn
  have hlength : (inputs.map known.isKnown).length = v.length := by
    rw [List.length_map, length_of_mapM_ok hv]
  exact hnot _ (hr.sameOn hany hflags (agreeOn_substituted Scalar.nan hlength))

/-- Once the walk has decided, folding succeeds, whatever is registered. -/
theorem WellFormed.exists_foldConstants_of_walk (ht : t.WellFormed) {actions : List (Action V)}
    (h : Known.walk r t.firstKnown t.body.toList = .ok actions) :
    ∃ t', t.foldConstants r = .ok t' := by
  have hlength := Known.length_of_walk h
  obtain ⟨t', ht'⟩ : ∃ t', t.rebuild actions = .ok t' := by
    refine exists_rebuild (Known.Foldable r t.valueCount) (by simpa using hlength) ?_
      (fun hJ hb => hJ.step hb) fun {b} hJ i hi => ?_
    · refine ⟨?_, Rebuild.total_start t, t.firstKnown, ?_⟩
      · rw [List.map_fst_zip (by omega)]
        exact Rebuild.ready_start ht
      · rw [List.map_fst_zip (by omega), List.map_snd_zip (by omega)]
        exact h
    · obtain ⟨hready, htotal, -⟩ := hJ
      have hsize : b.values.size = t.valueCount := hready.size
      exact htotal i (hsize ▸ ht.dependents i hi)
  exact ⟨t', bind_eq_ok_iff.mpr ⟨actions, h, ht'⟩⟩

/-- Folding succeeds where every query is answered and the tape evaluates somewhere, unless a call
of this evaluation is refused. -/
theorem WellFormed.foldConstants_cases (ht : t.WellFormed) (hr : r.KeepsConstants)
    (hanswered : t.ConstancyAnswered r) {x : List V} {a : Answer V}
    (ha : (t.observe r x).outcome = .ok a) :
    (∃ t', t.foldConstants r = .ok t') ∨
      ∃ fault, t.foldConstants r = .error fault ∧ t.RefusesUnknown r x fault := by
  have hx := length_of_observe ha
  rw [observe_eq t r hx] at ha
  cases hrun : (State.start x).execAll r t.body.toList with
  | error halt =>
    rw [hrun] at ha
    cases ha
  | ok s =>
    rcases (sound_firstKnown t hx).walk_cases hr hanswered hrun with ⟨actions, hwalk⟩ |
      ⟨fault, before, u, behind, s₁, known, hwalk, hrefused⟩
    · exact Or.inl (ht.exists_foldConstants_of_walk hwalk)
    · exact Or.inr ⟨fault, bind_eq_error_iff.mpr (Or.inl hwalk), before, u, behind, s₁, known,
        hrefused⟩

/-- Folding succeeds where every query is answered and the tape evaluates somewhere. -/
theorem WellFormed.exists_foldConstants (ht : t.WellFormed) (hr : r.SoundConstancy)
    (hanswered : t.ConstancyAnswered r) {x : List V} {a : Answer V}
    (ha : (t.observe r x).outcome = .ok a) : ∃ t', t.foldConstants r = .ok t' := by
  rcases ht.foldConstants_cases hr.keepsConstants hanswered ha with hok | ⟨fault, -, hrefuses⟩
  · exact hok
  · exact absurd hrefuses (not_refusesUnknown hr)

theorem folds_start {actions : List (Action V)}
    (hwalk : Known.walk r t.firstKnown t.body.toList = .ok actions) {x : List V}
    (hx : x.length = t.indCount) :
    Known.Folds r (t.body.toList.zip actions) (.start t) (.start x) (.start x) := by
  refine ⟨t.firstKnown, ?_, sound_firstKnown t hx, Rebuild.keepsVectors_start t,
    .start t .full hx⟩
  have hlength := Known.length_of_walk hwalk
  rw [List.map_fst_zip (by omega), List.map_snd_zip (by omega)]
  exact hwalk

/-- Where the tape evaluates successfully, a folded tape shows what the tape shows. -/
theorem observe_of_foldConstants_of_ok (hr : r.KeepsConstants) (h : t.foldConstants r = .ok t')
    {x : List V} {a : Answer V} (ha : (t.observe r x).outcome = .ok a) :
    t'.observe r x = t.observe r x := by
  obtain ⟨actions, hwalk, hrebuild⟩ := bind_eq_ok_iff.mp h
  have hx := length_of_observe ha
  rw [observe_eq t r hx] at ha
  obtain ⟨c, hdeps, hfollows⟩ := rebuild_follows (lasting_excused fun _ => False) hrebuild
    (Known.Folds r) (folds_start hwalk hx)
    fun {u action plan b b' s s'} hI hb hs' hstep => by
      cases he : u.effect r s.values s.vectors with
      | error fault =>
        rw [State.exec_of_error he]
        exact .off (Or.inl ⟨_, rfl⟩)
      | ok e =>
        obtain ⟨s₁', hrun, hfolds⟩ := hI.step_ok hr hb hs' hstep he
        exact Rebuild.follows_of_effect he hrun hfolds
  cases hold : (State.start x).execAll r t.body.toList with
  | error halt =>
    rw [hold] at ha
    cases ha
  | ok s =>
    rw [hold] at hfollows
    rcases hfollows.of_ok with ⟨s', hnew, _, _, _, _, hsim⟩ | ⟨_, _, hfalse⟩
    · exact observe_eq_of_sim hrebuild hx hdeps hsim hold hnew
    · exact hfalse.elim

/-- Whatever the independents are, a folded tape shows what the tape shows. -/
theorem observe_of_foldConstants (hr : r.SoundConstancy) (h : t.foldConstants r = .ok t')
    (x : List V) : t'.observe r x = t.observe r x := by
  obtain ⟨actions, hwalk, hrebuild⟩ := bind_eq_ok_iff.mp h
  refine observe_eq_of_rebuild hrebuild (Known.Folds r) (fun hx => folds_start hwalk hx)
    (fun hI hb hrun hstep => hI.step hr hb hrun hstep) (fun hI => ?_) x
  obtain ⟨_, _, _, _, hsim⟩ := hI
  exact hsim

/-- Folding constants keeps what is observed, where functions are right about their constant
results. It succeeds on a tape that evaluates somewhere, unless a query about constancy fails;
and wherever it succeeds, every evaluation of the new tape shows what the old one shows, be it
the same fault or the same dependents, and the same text. -/
theorem foldConstants_preserves [DecidableEq V] (ht : t.Reachable) (hr : r.SoundConstancy) :
    (∀ x a, (t.observe r x).outcome = .ok a → t.ConstancyAnswered r →
      ∃ t', t.foldConstants r = .ok t') ∧
    ∀ t', t.foldConstants r = .ok t' → ∀ x, t'.observe r x = t.observe r x := by
  refine ⟨fun x a ha hanswered => ?_, fun t' h x => observe_of_foldConstants hr h x⟩
  exact ht.wellFormed.exists_foldConstants hr hanswered ha

/-- A call that hands on a constant, and reads an independent as well. -/
def constantSelection : Tape Float :=
  { ((new 1 {}).push (.constant 2)).push (.foreign .call 0 0 1 [2, 0]) with deps := some [3] }

theorem foldConstants_constantSelection :
    constantSelection.Reachable ∧ (Registry.selecting (V := Float)).SoundConstancy ∧
      (constantSelection.observe .selecting [5]).outcome
        = .ok { dependents := [2], compareFalse := 0 } ∧
      constantSelection.ConstancyAnswered .selecting ∧
      ∃ t', constantSelection.foldConstants .selecting = .ok t' ∧
        ∀ x, t'.observe .selecting x = constantSelection.observe .selecting x := by
  have hreachable : constantSelection.Reachable :=
    (((Reachable.new 1 {}).push (by decide)).push (by decide)).withDependents rfl (by decide)
  have ha : (constantSelection.observe .selecting [5]).outcome
      = .ok { dependents := [2], compareFalse := 0 } := by rfl
  have hanswered : constantSelection.ConstancyAnswered .selecting := by
    refine ⟨by simp, fun results action _ => ⟨fun family id callId n inputs heq => ?_,
      fun _ _ _ => trivial⟩⟩
    cases heq
    exact ⟨_, rfl⟩
  have hsound : (Registry.selecting (V := Float)).SoundConstancy :=
    Registry.selecting_soundConstancy
  obtain ⟨hexists, hobserve⟩ := foldConstants_preserves hreachable hsound
  obtain ⟨t', h⟩ := hexists [5] _ ha hanswered
  exact ⟨hreachable, hsound, ha, hanswered, t', h, hobserve t' h⟩

end Tape

end OpTape
