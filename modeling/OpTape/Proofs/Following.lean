import OpTape.Proofs.Simulation
/-
  From single usages to whole evaluations. A pass gives an invariant between the old and the
  new state, which may depend on the actions still to be carried out, and shows that each
  action keeps it, unless the two runs end there in a way that a later usage cannot change;
  `rebuild_follows` is the one induction that carries it through an evaluation. Passes that keep
  faults as well get from it that nothing is to be seen of them from outside
  (`observe_eq_of_rebuild`).
-/
namespace OpTape

section

variable {V : Type}

/-- A way in which an old and a new run can have ended. -/
abbrev Ending (V : Type) := Except (Halt V) (State V) → Except (Halt V) (State V) → Prop

/-- Both runs get on, to related states, or they have ended as `ended` says. -/
inductive Follows (ended : Ending V) (related : State V → State V → Prop) :
    Except (Halt V) (State V) → Except (Halt V) (State V) → Prop
  | on {s s' : State V} (h : related s s') : Follows ended related (.ok s) (.ok s')
  | off {old new : Except (Halt V) (State V)} (h : ended old new) : Follows ended related old new

/-- Runs that have ended so do not change by what would come next. -/
def Lasting (ended : Ending V) : Prop :=
  ∀ old new f g, ended old new → ended (old >>= f) (new >>= g)

/-- The new run stops with the fault of the old one, and what was printed until then. -/
def SameFault : Ending V := fun old new =>
  ∃ halt halt', old = .error halt ∧ new = .error halt' ∧ halt'.fault = halt.fault ∧
    halt'.state.out = halt.state.out

/-- The old run stops, or the new one does with a fault that is excused. -/
def Excused (excuse : Fault V → Prop) : Ending V := fun old new =>
  (∃ halt, old = .error halt) ∨ ∃ halt, new = .error halt ∧ excuse halt.fault

theorem lasting_sameFault : Lasting (SameFault (V := V)) := by
  rintro _ _ f g ⟨halt, halt', rfl, rfl, hsame⟩
  exact ⟨halt, halt', rfl, rfl, hsame⟩

theorem lasting_excused (excuse : Fault V → Prop) : Lasting (Excused excuse) := by
  rintro _ _ f g (⟨halt, rfl⟩ | ⟨halt, rfl, h⟩)
  · exact Or.inl ⟨halt, rfl⟩
  · exact Or.inr ⟨halt, rfl, h⟩

/-- Where the old run gets on, the new one does too unless its fault is excused. -/
theorem Follows.of_ok {excuse : Fault V → Prop} {related : State V → State V → Prop} {s : State V}
    {new : Except (Halt V) (State V)} (h : Follows (Excused excuse) related (.ok s) new) :
    (∃ s', new = .ok s' ∧ related s s') ∨ ∃ halt, new = .error halt ∧ excuse halt.fault := by
  cases h with
  | on h => exact Or.inl ⟨_, rfl, h⟩
  | off h =>
    rcases h with ⟨_, ⟨⟩⟩ | hnew
    exact Or.inr hnew

end

namespace Rebuild

variable {V : Type} [Scalar V] {r : Registry V} {x : List V}

/-- The run of the usages that were recorded on the new tape so far. -/
def runs (b : Rebuild V) (r : Registry V) (x : List V) : Except (Halt V) (State V) :=
  (State.start x).execAll r b.tape.body.toList

@[simp] theorem runs_enter (b : Rebuild V) (rs : List (Option Nat)) :
    (b.enter rs).runs r x = b.runs r x := rfl

@[simp] theorem runs_enterVector (b : Rebuild V) (u : Usage V) (w : Option Nat) :
    (b.enterVector u w).runs r x = b.runs r x := by
  rw [runs, tape_enterVector]
  rfl

theorem runs_pushed {b : Rebuild V} {s : State V} (h : b.runs r x = .ok s) (u : Usage V) :
    (b.pushed u).runs r x = s.exec r u := by
  unfold runs at h ⊢
  rw [tape_pushed, Tape.body_push, Array.toList_push, State.execAll_append, h]
  exact State.execAll_singleton r s u

theorem runs_replaced {b : Rebuild V} {s : State V} (h : b.runs r x = .ok s) (u new : Usage V) :
    (b.replaced u new).runs r x = s.exec r new := by
  rw [replaced_eq, runs_enter, runs_enterVector, runs_pushed h]

theorem runs_pushed_of_effect {b : Rebuild V} {s : State V} (h : b.runs r x = .ok s)
    {new : Usage V} {e : Effect V} (he : new.effect r s.values s.vectors = .ok e) :
    (b.pushed new).runs r x = .ok (s.apply e) := by
  rw [runs_pushed h, State.exec_of_effect he]

theorem runs_replaced_of_effect {b : Rebuild V} {s : State V} (h : b.runs r x = .ok s)
    (u : Usage V) {new : Usage V} {e : Effect V}
    (he : new.effect r s.values s.vectors = .ok e) :
    (b.replaced u new).runs r x = .ok (s.apply e) := by
  rw [runs_replaced h, State.exec_of_effect he]

theorem runs_replaced_of_error {b : Rebuild V} {s : State V} (h : b.runs r x = .ok s)
    (u : Usage V) {new : Usage V} {fault : Fault V}
    (hfault : new.effect r s.values s.vectors = .error fault) :
    (b.replaced u new).runs r x = .error ⟨fault, s.spoil new⟩ := by
  rw [runs_replaced h, State.exec_of_error hfault]

theorem runs_withConstants {b : Rebuild V} {s : State V} (h : b.runs r x = .ok s)
    (values : List (Option V)) :
    (b.withConstants values).runs r x = .ok (s.apply (.results (values.filterMap id))) := by
  induction values generalizing b s with
  | nil =>
    have hsame : s.apply (.results []) = s := by simp [State.apply, append_list_eq]
    rw [List.filterMap_nil, hsame]
    exact h
  | cons value rest ih =>
    cases value with
    | none => exact ih h
    | some v =>
      have hone : (b.pushed (.constant v)).runs r x = .ok (s.apply (.results [v])) :=
        runs_pushed h (.constant v)
      have hrest := ih hone
      rw [apply_results_append] at hrest
      exact hrest

/-- What is recorded later runs behind what is there. -/
theorem runs_of_grows {b b' : Rebuild V} (hgrows : b.tape.Grows b'.tape) :
    ∃ g, b'.runs r x = b.runs r x >>= g := by
  obtain ⟨us, hus⟩ := hgrows.body_eq
  unfold runs
  rw [hus, State.execAll_append]
  exact ⟨_, rfl⟩

/-- An invariant that each action keeps holds at the end of a run. -/
theorem run?_follows {ended : Ending V} (hlasting : Lasting ended)
    (I : List (Usage V × Action V) → Rebuild V → State V → State V → Prop)
    (hstep : ∀ {u action plan b b' s s'}, I ((u, action) :: plan) b s s' → b.Bounded →
      b.runs r x = .ok s' → Step b u action b' →
      Follows ended (I plan b') (s.exec r u) (b'.runs r x))
    {plan : List (Usage V × Action V)} {b c : Rebuild V} {s s' : State V} (hI : I plan b s s')
    (hb : b.Bounded) (hs' : b.runs r x = .ok s') (hrun : b.run? plan = some c) :
    Follows ended (I [] c) (s.execAll r (plan.map Prod.fst)) (c.runs r x) := by
  induction plan generalizing b s s' with
  | nil =>
    obtain rfl := Option.some.inj hrun
    rw [List.map_nil, State.execAll_nil, hs']
    exact .on hI
  | cons step plan ih =>
    obtain ⟨u, action⟩ := step
    obtain ⟨b', hb', hrest⟩ := run?_cons_eq_some_iff.mp hrun
    have hfollows := hstep hI hb hs' hb'
    rw [List.map_cons, State.execAll_cons]
    generalize hold : s.exec r u = old at hfollows ⊢
    generalize hnew : b'.runs r x = new at hfollows
    cases hfollows with
    | on hI₁ => exact ih hI₁ (hb'.bounded hb) hnew hrest
    | off h =>
      obtain ⟨g, hg⟩ := runs_of_grows (r := r) (x := x) (grows_of_run? hrest)
      rw [hg, hnew]
      exact .off (hlasting _ _ _ g h)

/-- A usage that succeeds is followed when the new run gets on to a related state. -/
theorem follows_of_effect {ended : Ending V} {related : State V → State V → Prop}
    {b' : Rebuild V} {s s₁' : State V} {u : Usage V} {e : Effect V}
    (he : u.effect r s.values s.vectors = .ok e) (hrun : b'.runs r x = .ok s₁')
    (hrelated : related (s.apply e) s₁') : Follows ended related (s.exec r u) (b'.runs r x) := by
  rw [State.exec_of_effect he, hrun]
  exact .on hrelated

/-- A copy follows the usage, faults included, where nothing that it reads was dropped. -/
theorem follows_copied {b : Rebuild V} {s s' : State V} (h : b.Sim .full s s') (hb : b.Bounded)
    (hkeeps : b.KeepsVectors) (hs' : b.runs r x = .ok s') {u new : Usage V}
    (hnew : Usage.Renames b.value? b.vector? u new) {related : State V → State V → Prop}
    (hrelated : ∀ {e s₁'}, u.effect r s.values s.vectors = .ok e →
      (b.replaced u new).Sim .full (s.apply e) s₁' → related (s.apply e) s₁') :
    Follows SameFault related (s.exec r u) ((b.replaced u new).runs r x) := by
  cases he : u.effect r s.values s.vectors with
  | ok e =>
    obtain ⟨e', he', hsim⟩ := h.copied hb (.refl _ s) hnew (fun _ _ => trivial)
      (fun _ _ => trivial) (fun _ => rfl) (fun _ => rfl) he
    exact follows_of_effect he (runs_replaced_of_effect hs' u he') (hrelated he hsim)
  | error f =>
    have he' : new.effect r s'.values s'.vectors = .error f := by
      rw [h.effect_renamed hkeeps hnew, he]
    rw [State.exec_of_error he, runs_replaced_of_error hs' u he']
    refine .off ⟨_, _, rfl, rfl, rfl, ?_⟩
    rw [State.out_spoil, State.out_spoil]
    exact h.out

end Rebuild

namespace Tape

variable {V : Type} [Scalar V] {r : Registry V} {t t' : Tape V} {actions : List (Action V)}

/-- An invariant that each action keeps relates the states in which the old and the rebuilt tape
end, together with the table that carries the dependents over. -/
theorem rebuild_follows {ended : Ending V} (hlasting : Lasting ended) {x : List V}
    (h : t.rebuild actions = .ok t')
    (I : List (Usage V × Action V) → Rebuild V → State V → State V → Prop)
    (hstart : I (t.body.toList.zip actions) (.start t) (.start x) (.start x))
    (hstep : ∀ {u action plan b b' s s'}, I ((u, action) :: plan) b s s' → b.Bounded →
      b.runs r x = .ok s' → Rebuild.Step b u action b' →
      Follows ended (I plan b') (s.exec r u) (b'.runs r x)) :
    ∃ c : Rebuild V, t.dependents.mapM c.value? = some t'.dependents ∧
      Follows ended (I [] c) ((State.start x).execAll r t.body.toList)
        ((State.start x).execAll r t'.body.toList) := by
  obtain ⟨hlength, c, hrun, hfinish⟩ := rebuild_eq_ok_iff.mp h
  obtain ⟨ds, hds, hset⟩ := Rebuild.finish?_eq_some_iff.mp hfinish
  obtain ⟨-, rfl⟩ := setDependents?_eq_some_iff.mp hset
  refine ⟨c, hds, ?_⟩
  have hfollows := Rebuild.run?_follows hlasting I hstep hstart (Rebuild.bounded_start t) rfl hrun
  rw [List.map_fst_zip (by simp [hlength])] at hfollows
  exact hfollows

/-- Evaluations that end in related states show the same. -/
theorem observe_eq_of_sim {x : List V} {c : Rebuild V} {s s' : State V}
    (h : t.rebuild actions = .ok t') (hx : x.length = t.indCount)
    (hdeps : t.dependents.mapM c.value? = some t'.dependents) (hsim : c.Sim .full s s')
    (hold : (State.start x).execAll r t.body.toList = .ok s)
    (hnew : (State.start x).execAll r t'.body.toList = .ok s') :
    t'.observe r x = t.observe r x := by
  have hind := (rebuild_inherits h).1
  have hcompare : s'.compareFalse = s.compareFalse := hsim.compareFalse
  have hout : s'.out = s.out := hsim.out
  rw [observe_eq t r hx, observe_eq t' r (hx.trans hind.symm), hold, hnew]
  simp only [conclude, hsim.mapM_entry_eq hdeps fun _ _ => trivial, hcompare, hout]

/-- A rebuilt tape shows what the old one shows when all values that are carried over, and
faults, are kept step by step. -/
theorem observe_eq_of_rebuild (h : t.rebuild actions = .ok t')
    (I : List (Usage V × Action V) → Rebuild V → State V → State V → Prop)
    (hstart : ∀ {x}, x.length = t.indCount →
      I (t.body.toList.zip actions) (.start t) (.start x) (.start x))
    (hstep : ∀ {x u action plan b b' s s'}, I ((u, action) :: plan) b s s' → b.Bounded →
      b.runs r x = .ok s' → Rebuild.Step b u action b' →
      Follows SameFault (I plan b') (s.exec r u) (b'.runs r x))
    (hlast : ∀ {b s s'}, I [] b s s' → b.Sim .full s s') (x : List V) :
    t'.observe r x = t.observe r x := by
  have hind := (rebuild_inherits h).1
  by_cases hx : x.length = t.indCount
  · obtain ⟨c, hds, hfollows⟩ := rebuild_follows lasting_sameFault h I (hstart hx) hstep
    generalize hold : (State.start x).execAll r t.body.toList = old at hfollows
    generalize hnew : (State.start x).execAll r t'.body.toList = new at hfollows
    cases hfollows with
    | on hI => exact observe_eq_of_sim h hx hds (hlast hI) hold hnew
    | off hsame =>
      obtain ⟨halt, halt', rfl, rfl, hfault, hout⟩ := hsame
      rw [observe_eq t r hx, observe_eq t' r (hx.trans hind.symm), hold, hnew]
      simp only [conclude, hfault, hout]
  · simp only [observe, if_neg hx, hind]

end Tape

end OpTape
