import OpTape.Proofs.SelfContained
import OpTape.Proofs.Transcript
import OpTape.Proofs.VectorHistory
/-
  What a failed evaluation leaves behind. It has come to a usage that fails, for a reason that lies
  in an index, in the registry or in a registered function (`Usage.FailsWith`). In front of the
  results of this usage everything is as a successful evaluation would leave it, behind them
  nothing was touched, and the output breaks off before the usage (`Tape.BreaksOff`).
-/
namespace OpTape

variable {V : Type} [Scalar V]

namespace Usage

/-- The usage can fail in this way. -/
inductive FailsWith : Usage V → Fault V → Prop
  | load {w x size : Nat} {index : V} : FailsWith (load w x) (.vectorIndex w index size)
  | store {w x y size : Nat} {index : V} : FailsWith (store w x y) (.vectorIndex w index size)
  | discrete {id x : Nat} : FailsWith (discrete id x) (.unknownDiscrete id)
  | unknown {family : Family} {id callId n : Nat} {inputs : List Nat} :
      FailsWith (foreign family id callId n inputs) (.unknownFunction family id)
  | deleted {family : Family} {id callId n : Nat} {inputs : List Nat} :
      FailsWith (foreign family id callId n inputs) (.deletedFunction family id)
  | apply {family : Family} {id callId n : Nat} {inputs : List Nat} {name reason : String} :
      FailsWith (foreign family id callId n inputs) (.applyFailed family id name reason)

variable {r : Registry V} {values : Array V} {vectors : Array (Array V)} {u : Usage V}
  {fault : Fault V}

omit [Scalar V] in
theorem failsWith_of_getDiscrete {id x : Nat} (h : r.getDiscrete id = .error fault) :
    (discrete id x).FailsWith fault := by
  unfold Registry.getDiscrete at h
  split at h <;> cases h
  exact .discrete

omit [Scalar V] in
theorem failsWith_of_apply {family : Family} {id callId n : Nat} {inputs : List Nat} {x : List V}
    (h : r.apply family id callId x n = .error fault) :
    (foreign family id callId n inputs).FailsWith fault := by
  rcases bind_eq_error_iff.mp h with hget | ⟨function, -, happly⟩
  · unfold Registry.get at hget
    split at hget <;> cases hget
    · exact .deleted
    · exact .unknown
  · obtain ⟨reason, -, rfl⟩ := mapError_eq_error_iff.mp happly
    exact .apply

theorem locate_eq_error {w size : Nat} {index : V} (h : locate w index size = .error fault) :
    fault = .vectorIndex w index size := by
  unfold locate at h
  split at h
  · cases h
  · exact (Except.error.inj h).symm
  · split at h
    · cases h
    · exact (Except.error.inj h).symm

/-- A load or a store fails where its index is not found. -/
theorem fault_of_access {w x : Nat} (haccess : u.access? = some (w, x))
    (hfits : u.Fits values.size vectors.size) (h : u.effect r values vectors = .error fault) :
    ∃ index size, fault = .vectorIndex w index size := by
  obtain ⟨hx, hw⟩ := lt_of_access haccess hfits
  obtain ⟨hpasses, hfails⟩ := effect_of_access (r := r) haccess hfits
    (Array.getElem?_eq_getElem hw) (Array.getElem?_eq_getElem hx)
  cases hlocate : locate w values[x] vectors[w].size with
  | ok cell =>
    obtain ⟨e, he⟩ := hpasses cell hlocate
    cases he.symm.trans h
  | error fault' =>
    obtain rfl := Except.error.inj ((hfails fault' hlocate).symm.trans h)
    exact ⟨_, _, locate_eq_error hlocate⟩

/-- A usage whose operands are there fails for a reason of its own only. -/
theorem failsWith_of_effect (hfits : u.Fits values.size vectors.size)
    (h : u.effect r values vectors = .error fault) : u.FailsWith fault := by
  have hentry {i : Nat} (hi : i ∈ u.reads) :
      ∃ a, (entry values i : Except (Fault V) V) = .ok a :=
    ⟨_, entry_eq_ok_iff.mpr (Array.getElem?_eq_getElem (hfits.1 i hi))⟩
  have hentries (is : List Nat) (his : ∀ i ∈ is, i ∈ u.reads) :
      ∃ xs, (is.mapM (entry values) : Except (Fault V) (List V)) = .ok xs :=
    exists_mapM_ok fun i hi => hentry (his i hi)
  have hself (hkind : u.kind.isSelfContained = true) : u.FailsWith fault := by
    obtain ⟨e, he⟩ := exists_effect hkind r vectors hfits.1
    cases he.symm.trans h
  cases u with
  | load w x =>
    obtain ⟨index, size, rfl⟩ := fault_of_access rfl hfits h
    exact .load
  | store w x y =>
    obtain ⟨index, size, rfl⟩ := fault_of_access rfl hfits h
    exact .store
  | vector initial =>
    obtain ⟨cells, hcells⟩ := hentries initial (by simp [reads, args, initials])
    rw [effect, hcells] at h
    cases h
  | discrete id x =>
    obtain ⟨a, ha⟩ := hentry (i := x) (by simp [reads, args])
    cases hget : r.getDiscrete id with
    | error fault' =>
      rw [effect_of_isPure rfl, compute, hget] at h
      obtain rfl := Except.error.inj h
      exact failsWith_of_getDiscrete hget
    | ok function =>
      rw [effect_of_isPure rfl, compute, hget, ha] at h
      cases h
  | foreign family id callId n inputs =>
    obtain ⟨x, hx⟩ := hentries inputs (by simp [reads, args, initials])
    rw [effect_foreign r vectors hx] at h
    cases happly : r.apply family id callId x n with
    | error fault' =>
      rw [happly] at h
      obtain rfl := Except.error.inj h
      exact failsWith_of_apply happly
    | ok results =>
      rw [happly] at h
      cases h
  | _ => exact hself rfl

/-- The entries from index `first` on are what the equation of the usage says: for a load, what the
vector holds at its index, and for any other usage, what it computes. -/
def DefinedAt (u : Usage V) (r : Registry V) (values : Array V) (before : List (Usage V))
    (first : Nat) : Prop :=
  u.SolvedAt r values first ∧ u.LoadedAt Scalar.position values before first

end Usage

namespace Tape

variable {t : Tape V} {r : Registry V} {traced : Bool} {initial : Array V} {s s' : State V}
  {j k : Nat} {slot : Slot} {u : Usage V}

/-- An evaluation that gets behind `k` usages got behind any fewer. -/
theorem exists_stateAt_of_le (hjk : j ≤ k) (hs : t.stateAt r traced initial k = .ok s) :
    ∃ s', t.stateAt r traced initial j = .ok s' := by
  rw [stateAt, ← List.take_append_drop j ((t.noted traced).take k), List.take_take,
    Nat.min_eq_left hjk, State.run_append] at hs
  obtain ⟨s', hs', -⟩ := bind_eq_ok_iff.mp hs
  exact ⟨s', hs'⟩

/-- Behind a usage, the final values satisfy its equation. -/
theorem WellFormed.definedAt (ht : t.WellFormed) (hsize : initial.size = t.valueCount)
    (hk : t.slotted[k]? = some (slot, u)) (hs : t.stateAt r traced initial (k + 1) = .ok s') :
    u.DefinedAt r (t.evaluateInPlace r traced initial).values (t.usages.take k)
      slot.firstResult := by
  refine ⟨?_, ht.loadedAt hsize hk ((ht.reaches_iff hsize).mpr ⟨s', hs⟩)⟩
  obtain ⟨more, hmore⟩ := ht.grows_of_stateAt hsize hs
  obtain ⟨s, e, hs₀, he, rfl⟩ := (stateAt_succ_eq_ok_iff hk).mp hs
  have hfits := ht.fits_of_stateAt hsize hk hs₀
  have hgrown : (t.evaluateInPlace r traced initial).values
      = s.values ++ e.appended.toArray ++ more := by
    rw [hmore]
    exact congrArg (· ++ more) (State.values_apply s e)
  rw [hgrown, ← (counts_of_stateAt hsize hk hs₀).1]
  exact Usage.solvedAt_of_effect hfits.1 he more

/-- What is left of an evaluation of `t` that broke off at its usage `k`. -/
structure BreaksOff (t : Tape V) (r : Registry V) (traced : Bool) (initial : Array V) (k : Nat)
    (slot : Slot) (u : Usage V) (e : Evaluation V) : Prop where
  size : e.values.size = initial.size
  independents : ∀ i < t.indCount, e.values[i]? = initial[i]?
  /-- The results in front are what the equations of their usages say. -/
  defined : ∀ j s v, j < k → t.slotted[j]? = some (s, v) →
    v.DefinedAt r e.values (t.usages.take j) s.firstResult
  behind : ∀ i, slot.firstResult + slot.resultCount ≤ i → e.values[i]? = initial[i]?
  /-- Only a registered function touches its results when it fails. -/
  own : (∀ family, u.kind ≠ .foreign family) → ∀ i, slot.firstResult ≤ i →
    e.values[i]? = initial[i]?
  out : e.out = t.heading traced initial ++ t.transcript traced e.values k

omit [Scalar V] in
/-- Behind the values so far, the array is what it was. -/
theorem getElem?_refilled (values initial : Array V) {i : Nat} (hi : values.size ≤ i) :
    (values ++ initial.extract values.size initial.size)[i]? = initial[i]? := by
  rw [Array.getElem?_append_right hi, Array.getElem?_extract]
  split
  · rw [Nat.add_sub_cancel' hi]
  · rw [Array.getElem?_eq_none (by omega)]

omit [Scalar V] in
theorem size_refilled {values initial : Array V} (h : values.size ≤ initial.size) :
    (values ++ initial.extract values.size initial.size).size = initial.size := by
  rw [Array.size_append, Array.size_extract]
  omega

theorem spoil_of_not_foreign (s : State V) (hu : ∀ family, u.kind ≠ .foreign family) :
    s.spoil u = s := by
  cases u with
  | foreign family => exact absurd rfl (hu family)
  | _ => rfl

theorem size_spoil_le (s : State V) (u : Usage V) :
    (s.spoil u).values.size ≤ s.values.size + u.resultCount := by
  cases u with
  | foreign family id callId n inputs =>
    rw [State.spoil, append_list_eq, Array.size_append]
    simp [Usage.resultCount]
  | _ => exact Nat.le_add_right _ _

/-- The results at a slot are values of the tape. -/
theorem results_le_of_slotted (hk : t.slotted[k]? = some (slot, u)) :
    slot.resultCount = u.resultCount ∧ slot.firstResult + slot.resultCount ≤ t.valueCount := by
  have husages := getElem?_usages hk
  have htotal := resultTotal_usages t
  rw [take_append_usage husages, Usage.resultTotal_append, Usage.resultTotal_cons] at htotal
  obtain rfl := slot_eq_of_slotted hk
  refine ⟨rfl, ?_⟩
  show t.indCount + Usage.resultTotal (t.usages.take k) + u.resultCount ≤ t.valueCount
  omega

/-- A usage that fails leaves everything in front of it as evaluated and everything behind it as it
was. -/
theorem WellFormed.breaksOff (ht : t.WellFormed) (hsize : initial.size = t.valueCount)
    (hk : t.slotted[k]? = some (slot, u)) (hs : t.stateAt r traced initial k = .ok s)
    {fault : Fault V} (hfault : u.effect r s.values s.vectors = .error fault) :
    t.BreaksOff r traced initial k slot u (t.evaluateInPlace r traced initial) := by
  have hend := ht.evaluateInPlace_of_effect_error hsize hk hs hfault
  have hfirst := (counts_of_stateAt hsize hk hs).1
  obtain ⟨hcount, hresults⟩ := results_le_of_slotted hk
  have hspoil := size_spoil_le s u
  obtain ⟨more, hmore⟩ := ht.grows_of_stateAt hsize hs
  have hvalues : (t.evaluateInPlace r traced initial).values.size = initial.size := by
    rw [hend]
    exact size_refilled (by omega)
  refine ⟨hvalues, fun i hi => ?_, fun j s' v hj hv => ?_, fun i hi => ?_, fun hforeign i hi => ?_,
    ?_⟩
  · have hextract := congrArg (·[i]?) (ht.extract_independents r traced hsize)
    simpa only [getElem?_independents (hvalues.trans hsize), getElem?_independents hsize, if_pos hi]
      using hextract
  · obtain ⟨s₁, hs₁⟩ := exists_stateAt_of_le hj hs
    exact ht.definedAt hsize hv hs₁
  · rw [hend]
    exact getElem?_refilled _ _ (by omega)
  · rw [hend]
    refine getElem?_refilled _ _ ?_
    rw [spoil_of_not_foreign s hforeign]
    omega
  · rw [← out_of_stateAt hsize (Nat.le_of_lt (lt_of_slotted hk)) hs hmore, hend]

variable [DecidableEq V]

/-- A failed evaluation leaves a well-defined prefix. If the array has the wrong size, it is handed
back as it was, and nothing is written. If the evaluation fails otherwise, then it got to a usage
that fails for a reason of its own. The independents and all results in front of this usage
are there, as their equations say. Its own results, unless it is a registered function, and all
entries behind them are as they were. The output is what the usages in front of it write. -/
theorem evaluateInPlace_failed {t : Tape V} (ht : t.Reachable) (r : Registry V) (traced : Bool)
    (initial : Array V) :
    (initial.size ≠ t.valueCount → t.evaluateInPlace r traced initial
      = { outcome := .error (.valueLength t.valueCount initial.size)
          values := initial
          out := "" }) ∧
    ∀ fault, initial.size = t.valueCount →
      (t.evaluateInPlace r traced initial).outcome = .error fault →
      ∃ k slot u s, t.slotted[k]? = some (slot, u) ∧ t.advance r traced initial k = .ok s ∧
        u.effect r s.values s.vectors = .error fault ∧ u.FailsWith fault ∧
        t.BreaksOff r traced initial k slot u (t.evaluateInPlace r traced initial) := by
  have hwell := ht.wellFormed
  refine ⟨fun hsize => if_neg hsize, fun fault hsize h => ?_⟩
  obtain ⟨k, slot, u, s, hk, hs, hfault⟩ := hwell.exists_of_outcome_error hsize h
  have hfits := hwell.fits_of_stateAt hsize hk hs
  refine ⟨k, slot, u, s.inPlace initial, hk, (hwell.advance_eq_ok_iff hsize).mpr ⟨s, hs, rfl⟩,
    ?_, Usage.failsWith_of_effect hfits hfault, hwell.breaksOff hsize hk hs hfault⟩
  rw [State.effect_inPlace hfits, hfault]

/-- A tape that negates and prints its input, and then loads at it from a vector of one cell. -/
def missedLoad : Tape Float :=
  let printed := ((new 1 {}).push (.unary .neg 0)).push (.print "x = " "." 0 0)
  { ((printed.push (.vector [0])).push (.load 0 0)).push (.unary .neg 3) with deps := some [4] }

theorem evaluateInPlace_failed_missedLoad : missedLoad.Reachable ∧
    (missedLoad.evaluateInPlace .empty false #[5, 7, 7, 7, 7]).outcome
      = .error (.vectorIndex 0 5 1) ∧
    (missedLoad.evaluateInPlace .empty false #[5, 7, 7, 7, 7]).values = #[5, 0, -5, 7, 7] ∧
    (missedLoad.evaluateInPlace .empty false #[5, 7, 7, 7, 7]).out = "x = 5." ∧
    ∃ k slot u, missedLoad.slotted[k]? = some (slot, u) ∧
      u.FailsWith (Fault.vectorIndex 0 (5 : Float) 1) ∧
      missedLoad.BreaksOff .empty false #[5, 7, 7, 7, 7] k slot u
        (missedLoad.evaluateInPlace .empty false #[5, 7, 7, 7, 7]) := by
  have hreachable : missedLoad.Reachable :=
    (((((Reachable.new 1 {}).push (by decide)).push (by decide)).push (by decide)).push
      (by decide)).push (by decide) |>.withDependents rfl (by decide)
  have hfails : (missedLoad.evaluateInPlace .empty false #[5, 7, 7, 7, 7]).outcome
      = .error (.vectorIndex 0 5 1) := by with_unfolding_all rfl
  obtain ⟨-, hleft⟩ := evaluateInPlace_failed hreachable .empty false #[5, 7, 7, 7, 7]
  obtain ⟨k, slot, u, s, hk, -, -, hcause, hbreaks⟩ := hleft _ rfl hfails
  exact ⟨hreachable, hfails, by decide +kernel, by decide +kernel, k, slot, u, hk, hcause, hbreaks⟩

end Tape

end OpTape
