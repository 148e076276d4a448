import OpTape.Proofs.Dropping
import OpTape.Proofs.Folding
import OpTape.Proofs.References
import OpTape.Proofs.SingleReader
/-
  Why a pass stops. Merging and fusing never do on a tape in order. Dropping and folding stop only
  where a registry fails them (`Registry.Fails`): under a name that the tape asks for there is
  nothing, or the function there gives no answer, or its answers do not go together. What a pass
  has decided it can carry out (`exists_dropDead`, `exists_foldConstants_of_walk`), so it never
  misses a value that it dropped, whatever is registered.
-/
namespace OpTape

variable {V : Type}

namespace Registry

/-- The registry does not serve what a tape asks it for, and the fault says why. -/
inductive Fails (r : Registry V) : Reference → Fault V → Prop
  | unknown {family : Family} {id : Nat} (h : r.entry? family id = none) :
      Fails r (.foreign family id) (.unknownFunction family id)
  | deleted {family : Family} {id : Nat} {name : String}
      (h : r.entry? family id = some (.deleted name)) :
      Fails r (.foreign family id) (.deletedFunction family id)
  | apply {family : Family} {id callId n : Nat} {f : Foreign V} {x : List V} {reason : String}
      (hget : r.get family id = .ok f) (h : f.apply callId x n = .error reason) :
      Fails r (.foreign family id) (.applyFailed family id f.name reason)
  | dependence {family : Family} {id callId inputCount : Nat} {f : Foreign V}
      {needed : List Bool} {reason : String} (hget : r.get family id = .ok f)
      (h : f.dependence callId needed inputCount = .error reason) :
      Fails r (.foreign family id) (.dependenceFailed family id f.name reason)
  | constancy {family : Family} {id callId n : Nat} {f : Foreign V} {constant : List Bool}
      {reason : String} (hget : r.get family id = .ok f)
      (h : f.constancy callId constant n = .error reason) :
      Fails r (.foreign family id) (.constancyFailed family id f.name reason)
  | omitted {family : Family} {id callId inputCount result : Nat} {f : Foreign V}
      {needed : List Bool} (hget : r.get family id = .ok f)
      (h : f.Omits callId needed inputCount result) :
      Fails r (.foreign family id) (.dependenceOmitted family id f.name result)
  | unknownDiscrete {id : Nat} (h : r.discretes[id]? = none) :
      Fails r (.discrete id) (.unknownDiscrete id)

variable {r : Registry V} {ref : Reference} {fault : Fault V}

theorem Fails.ne_contract (h : r.Fails ref fault) : fault ≠ .contract := by
  cases h <;> simp

theorem fails_of_getDiscrete {id : Nat} (h : r.getDiscrete id = .error fault) :
    r.Fails (.discrete id) fault := by
  unfold getDiscrete at h
  split at h
  · cases h
  · obtain rfl := Except.error.inj h
    exact .unknownDiscrete ‹_›

section

variable {family : Family} {id callId : Nat}

theorem fails_of_get (h : r.get family id = .error fault) : r.Fails (.foreign family id) fault := by
  unfold get at h
  split at h
  · cases h
  · obtain rfl := Except.error.inj h
    exact .deleted ‹_›
  · obtain rfl := Except.error.inj h
    exact .unknown ‹_›

/-- There is no function to put a question to, or it gives no answer. -/
theorem fails_of_question {α : Type} {question : Foreign V → Except String α}
    {wrap : Foreign V → String → Fault V}
    (h : (r.get family id >>= fun f => (question f).mapError (wrap f)) = .error fault)
    (hfails : ∀ f reason, r.get family id = .ok f → question f = .error reason →
      r.Fails (.foreign family id) (wrap f reason)) : r.Fails (.foreign family id) fault := by
  rcases bind_eq_error_iff.mp h with hget | ⟨f, hget, hf⟩
  · exact fails_of_get hget
  · obtain ⟨reason, hreason, rfl⟩ := mapError_eq_error_iff.mp hf
    exact hfails f reason hget hreason

theorem fails_of_apply {x : List V} {n : Nat} (h : r.apply family id callId x n = .error fault) :
    r.Fails (.foreign family id) fault :=
  fails_of_question h fun _ _ hget hf => .apply hget hf

theorem fails_of_dependence {needed : List Bool} {inputCount : Nat}
    (h : r.dependence family id callId needed inputCount = .error fault) :
    r.Fails (.foreign family id) fault :=
  fails_of_question h fun _ _ hget hf => .dependence hget hf

theorem fails_of_constancy {constant : List Bool} {n : Nat}
    (h : r.constancy family id callId constant n = .error fault) :
    r.Fails (.foreign family id) fault :=
  fails_of_question h fun _ _ hget hf => .constancy hget hf

end

/-- The registry fails one of the names. -/
def FailsOn (r : Registry V) (refs : List Reference) (fault : Fault V) : Prop :=
  ∃ ref ∈ refs, r.Fails ref fault

theorem FailsOn.ne_contract {refs : List Reference} (h : r.FailsOn refs fault) :
    fault ≠ .contract := by
  obtain ⟨ref, -, hfails⟩ := h
  exact hfails.ne_contract

theorem FailsOn.mono {refs refs' : List Reference} (h : r.FailsOn refs fault)
    (hsub : refs ⊆ refs') : r.FailsOn refs' fault := by
  obtain ⟨ref, href, hfails⟩ := h
  exact ⟨ref, hsub href, hfails⟩

theorem Fails.failsOn {us : List (Usage V)} {u : Usage V} (h : r.Fails ref fault) (hu : u ∈ us)
    (href : u.reference? = some ref) : r.FailsOn (us.filterMap Usage.reference?) fault :=
  ⟨ref, List.mem_filterMap.mpr ⟨u, hu, href⟩, h⟩

end Registry

/-! ## Computing a usage -/

/-- Where its operands have values, only the registry keeps a usage from computing its results. -/
theorem Usage.fails_of_compute [Scalar V] {u : Usage V} {r : Registry V} {fault : Fault V}
    {value : Nat → Except (Fault V) V} (hvalue : ∀ i ∈ u.reads, ∃ v, value i = .ok v)
    (h : u.compute r value = .error fault) :
    ∃ ref, u.reference? = some ref ∧ r.Fails ref fault := by
  cases u with
  | discrete id x =>
    obtain ⟨a, ha⟩ := hvalue x (by simp [reads, args])
    rcases bind_eq_error_iff.mp h with hget | ⟨function, -, h⟩
    · exact ⟨_, rfl, Registry.fails_of_getDiscrete hget⟩
    · rw [ha] at h
      cases h
  | foreign family id callId n inputs =>
    obtain ⟨x, hx⟩ := exists_mapM_ok fun i hi => hvalue i (List.mem_append_left _ hi)
    rcases bind_eq_error_iff.mp h with hinputs | ⟨x, -, h⟩
    · cases hx.symm.trans hinputs
    · rcases bind_eq_error_iff.mp h with happly | ⟨_, -, h⟩
      · exact ⟨_, rfl, Registry.fails_of_apply happly⟩
      · cases h
  | sum add sub =>
    have hfold (op : BinaryOp) {l : List Nat} (hl : ∀ i ∈ l, i ∈ add ++ sub) (s : V) :
        ∃ v, l.foldlM (fun s i => return Scalar.binary op s (← value i)) s = .ok v := by
      refine exists_foldlM_ok (fun s i hi => ?_) s
      obtain ⟨a, ha⟩ := hvalue i (List.mem_append_left _ (hl i hi))
      exact ⟨Scalar.binary op s a, by rw [ha]; rfl⟩
    obtain ⟨v, hv⟩ := hfold .add (fun i hi => List.mem_append_left _ hi) Scalar.zero
    obtain ⟨w, hw⟩ := hfold .sub (fun i hi => List.mem_append_right _ hi) v
    have htotal : total value add sub = .ok w := bind_eq_ok_iff.mpr ⟨v, hv, hw⟩
    rw [compute, htotal] at h
    cases h
  | unary op x =>
    obtain ⟨a, ha⟩ := hvalue x (by simp [reads, args])
    rw [compute, ha] at h
    cases h
  | binary op x y =>
    obtain ⟨a, ha⟩ := hvalue x (by simp [reads, args])
    obtain ⟨b, hb⟩ := hvalue y (by simp [reads, args])
    rw [compute, ha, hb] at h
    cases h
  | select cmp x y ifTrue ifFalse =>
    obtain ⟨a, ha⟩ := hvalue x (by simp [reads, args])
    obtain ⟨b, hb⟩ := hvalue y (by simp [reads, args])
    obtain ⟨v, hv⟩ := hvalue (if cmp.holds a b then ifTrue else ifFalse) (by
      cases cmp.holds a b <;> simp [reads, args])
    have hresult : (select cmp x y ifTrue ifFalse).compute r value = .ok [v] := by
      simp only [compute, bind_eq_ok_iff]
      exact ⟨a, ha, b, hb, v, hv, rfl⟩
    cases hresult.symm.trans h
  | constant | compare | vector | load | store | print => cases h

/-! ## The sweep -/

namespace Live

variable {r : Registry V} {options : Options} {fault : Fault V}

section

variable {family : Family} {id callId : Nat} {needed : List Bool}

theorem fails_of_unsupported {reads : List Bool} {js : List Nat}
    (h : unsupported r family id callId needed reads js = .error fault) :
    r.Fails (.foreign family id) fault := by
  induction js with
  | nil => cases h
  | cons j js ih =>
    rcases bind_eq_error_iff.mp h with hsingle | ⟨single, -, h⟩
    · exact Registry.fails_of_dependence hsingle
    · split at h
      · cases h
      · exact ih h

theorem fails_of_inputsRead {inputCount : Nat}
    (h : inputsRead r options family id callId needed inputCount = .error fault) :
    r.Fails (.foreign family id) fault := by
  rcases bind_eq_error_iff.mp h with hreads | ⟨reads, hreads, hrest⟩
  · exact Registry.fails_of_dependence hreads
  · split at hrest
    · rcases bind_eq_error_iff.mp hrest with hcheck | ⟨found, -, hrest⟩
      · exact fails_of_unsupported hcheck
      · cases found with
        | none => cases hrest
        | some result =>
          obtain rfl := Except.error.inj hrest
          obtain ⟨-, -, f, hget, hname, homits⟩ := omits_of_inputsRead h
          rw [← hname]
          exact .omitted hget homits
    · cases hrest

end

/-- The sweep stops only at a usage that the registry fails. -/
theorem fails_of_sweep {zeroIndex : Nat} {behind : Live} {p : Place} {us : List (Usage V)}
    (h : sweep r options zeroIndex behind p us = .error fault) :
    r.FailsOn (us.filterMap Usage.reference?) fault := by
  obtain ⟨before, u, rest, live, actions, rfl, -, hvisit⟩ := visit_of_sweep h
  obtain ⟨family, id, callId, n, inputs, rfl, hreads⟩ := inputsRead_of_visit hvisit
  exact (fails_of_inputsRead hreads).failsOn List.mem_append_cons_self rfl

end Live

/-! ## The walk that folds -/

namespace Known

variable [Scalar V] {r : Registry V} {known : Known V} {u : Usage V} {fault : Fault V}

theorem exists_operand {i : Nat} (hi : i < known.size) :
    ∃ v, known.operand i = .ok v := by
  have hentry : (entry known i : Except (Fault V) (Option V)) = .ok known[i] :=
    entry_eq_ok_iff.mpr (Array.getElem?_eq_getElem hi)
  exact ⟨known[i].getD Scalar.nan, by rw [operand, hentry]; rfl⟩

/-- Where the operands of a usage are in the table, only the registry stops its visit. -/
theorem fails_of_visit (hreads : ∀ i ∈ u.reads, i < known.size)
    (h : known.visit r u = .error fault) : ∃ ref, u.reference? = some ref ∧ r.Fails ref fault := by
  have hcompute (h : u.compute r known.operand = .error fault) :
      ∃ ref, u.reference? = some ref ∧ r.Fails ref fault :=
    Usage.fails_of_compute (fun i hi => exists_operand (hreads i hi)) h
  have hplain (hu : u.isPlain) : ∃ ref, u.reference? = some ref ∧ r.Fails ref fault := by
    rw [visit_of_isPlain hu] at h
    split at h
    · cases hresult : u.compute r known.operand with
      | error fault' =>
        rw [hresult] at h
        obtain rfl := Except.error.inj h
        exact hcompute hresult
      | ok vals =>
        rw [hresult] at h
        cases h
    · cases h
  cases u with
  | foreign family id callId n inputs =>
    rcases bind_eq_error_iff.mp h with hflags | ⟨flags, -, h⟩
    · exact ⟨_, rfl, Registry.fails_of_constancy hflags⟩
    · split at h
      · rcases bind_eq_error_iff.mp h with hvals | ⟨vals, -, h⟩
        · exact hcompute hvals
        · split at h <;> cases h
      · cases h
  | compare | select =>
    simp only [visit] at h
    split at h <;> cases h
  | constant | print | vector | load | store => cases h
  | unary | binary | discrete | sum => exact hplain rfl

theorem Visited.length_eq {results : List (Option V)} {action : Action V}
    (h : Visited r known u results action) : results.length = u.resultCount := by
  cases h with
  | computed hu _ hvals => rw [List.length_map, Usage.length_of_compute hu hvals]
  | applied | folded => exact length_restrict _ _
  | untouched => exact List.length_replicate
  | constant | settled | chosen => rfl

/-- The table grows with the values, so the walk stops only at a usage that the registry fails. -/
theorem fails_of_walk {us : List (Usage V)} {vectors : Nat}
    (hfit : Usage.FitAll known.size vectors us) (h : walk r known us = .error fault) :
    r.FailsOn (us.filterMap Usage.reference?) fault := by
  induction us generalizing known vectors with
  | nil => cases h
  | cons u us ih =>
    obtain ⟨hfits, hrest⟩ := hfit
    rcases bind_eq_error_iff.mp h with hvisit | ⟨⟨results, action⟩, hvisit, h⟩
    · obtain ⟨ref, href, hfails⟩ := fails_of_visit hfits.1 hvisit
      exact hfails.failsOn List.mem_cons_self href
    · rcases bind_eq_error_iff.mp h with hwalk | ⟨_, -, h⟩
      · have hsize : (known ++ results : Array (Option V)).size = known.size + u.resultCount := by
          rw [append_list_eq, Array.size_append, ← (visited_of_visit hvisit).length_eq]
          rfl
        exact (ih (hsize ▸ hrest) hwalk).mono ((List.sublist_cons_self u us).filterMap _).subset
      · cases h

end Known

/-! ## Passes -/

namespace Tape

variable {t t' : Tape V} {r : Registry V} {fault : Fault V}

theorem WellFormed.failsOn_of_dropDead (ht : t.WellFormed) (h : t.dropDead r = .error fault) :
    r.FailsOn t.references fault := by
  rcases bind_eq_error_iff.mp h with hsweep | ⟨⟨live, actions⟩, hsweep, -⟩
  · exact Live.fails_of_sweep hsweep
  · obtain ⟨t', hok⟩ := ht.exists_dropDead hsweep
    cases hok.symm.trans h

variable [Scalar V]

theorem WellFormed.failsOn_of_foldConstants (ht : t.WellFormed)
    (h : t.foldConstants r = .error fault) : r.FailsOn t.references fault := by
  rcases bind_eq_error_iff.mp h with hwalk | ⟨actions, hwalk, -⟩
  · have hsize : t.firstKnown.size = t.indCount + 1 := by simp [firstKnown]
    exact Known.fails_of_walk (hsize ▸ ht.body) hwalk
  · obtain ⟨t', hok⟩ := ht.exists_foldConstants_of_walk hwalk
    cases hok.symm.trans h

variable [DecidableEq V]

/-- One of the passes, alone or in a row, stops on `t` with a fault. -/
inductive StopsWith (t : Tape V) (r : Registry V) : Fault V → Prop
  | dropDead {fault : Fault V} (h : t.dropDead r = .error fault) : StopsWith t r fault
  | mergeEqual {fault : Fault V} (h : t.mergeEqual = .error fault) : StopsWith t r fault
  | foldConstants {fault : Fault V} (h : t.foldConstants r = .error fault) : StopsWith t r fault
  | fuseSums {fault : Fault V} (h : t.fuseSums = .error fault) : StopsWith t r fault
  | deduplicate {fault : Fault V} (h : t.deduplicate r = .error fault) : StopsWith t r fault
  | optimize {f : StageFault V} (h : t.optimize r = .error f) : StopsWith t r f.fault

theorem WellFormed.failsOn_of_deduplicate (ht : t.WellFormed)
    (h : t.deduplicate r = .error fault) : r.FailsOn t.references fault := by
  obtain ⟨merged, hmerge⟩ := ht.exists_mergeEqual
  rw [deduplicate, hmerge] at h
  exact references_of_mergeEqual hmerge ▸ (ht.mergeEqual hmerge).failsOn_of_dropDead h

/-- An optimization stops while it folds, or when it drops what is dead. Behind folding, merging
and fusing cannot fail. -/
theorem optimize_eq_error_cases {f : StageFault V} (h : t.optimize r = .error f) :
    (∃ fault, t.foldConstants r = .error fault ∧ f = ⟨.foldConstants, fault⟩) ∨
      ∃ folded merged fused fault, t.foldConstants r = .ok folded ∧
        folded.mergeEqual = .ok merged ∧ merged.fuseSums = .ok fused ∧
        fused.dropDead r = .error fault ∧ f = ⟨.dropDead, fault⟩ := by
  simp only [optimize, bind_eq_error_iff, mapError_eq_error_iff, mapError_eq_ok_iff] at h
  rcases h with ⟨fault, hfault, rfl⟩ | ⟨folded, hfold, ⟨fault, hmerge, -⟩ |
    ⟨merged, hmerge, ⟨fault, hfuse, -⟩ | ⟨fused, hfuse, fault, hfault, rfl⟩⟩⟩
  · exact Or.inl ⟨fault, hfault, rfl⟩
  · obtain ⟨merged, hok⟩ := (wellFormed_of_foldConstants hfold).exists_mergeEqual
    cases hok.symm.trans hmerge
  · have hmerged := (wellFormed_of_foldConstants hfold).mergeEqual hmerge
    obtain ⟨fused, hok⟩ := hmerged.exists_fuseSums
    cases hok.symm.trans hfuse
  · exact Or.inr ⟨folded, merged, fused, fault, hfold, hmerge, hfuse, hfault, rfl⟩

theorem WellFormed.failsOn_of_optimize (ht : t.WellFormed) {f : StageFault V}
    (h : t.optimize r = .error f) : r.FailsOn t.references f.fault := by
  rcases optimize_eq_error_cases h with ⟨fault, hfault, rfl⟩ |
    ⟨folded, merged, fused, fault, hfold, hmerge, hfuse, hfault, rfl⟩
  · exact ht.failsOn_of_foldConstants hfault
  · have hfused : fused.WellFormed := rebuild_wellFormed hfuse
    refine (hfused.failsOn_of_dropDead hfault).mono fun ref href => ?_
    have hmerged := references_of_rebuild hfuse href
    exact references_of_foldConstants hfold (references_of_mergeEqual hmerge ▸ hmerged)

/-- A pass stops on a tape in order only where the registry fails a usage of the tape. -/
theorem WellFormed.failsOn_of_stopsWith (ht : t.WellFormed) (h : t.StopsWith r fault) :
    r.FailsOn t.references fault := by
  cases h with
  | dropDead h => exact ht.failsOn_of_dropDead h
  | mergeEqual h =>
    obtain ⟨t', hok⟩ := ht.exists_mergeEqual
    cases hok.symm.trans h
  | foldConstants h => exact ht.failsOn_of_foldConstants h
  | fuseSums h =>
    obtain ⟨t', hok⟩ := ht.exists_fuseSums
    cases hok.symm.trans h
  | deduplicate h => exact ht.failsOn_of_deduplicate h
  | optimize h => exact ht.failsOn_of_optimize h

end Tape

end OpTape
