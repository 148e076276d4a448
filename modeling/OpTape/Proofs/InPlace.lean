import OpTape.InPlace
import OpTape.Proofs.Layout
import OpTape.Proofs.Simulation
/-
  Evaluating in place is evaluating. At any time the array holds the values so far and, behind
  them, what the caller left (`State.inPlace`). A usage of a tape in order reads values so far only,
  and its results take the place of the first entries behind them. So no stale entry is ever
  read, no value is overwritten, and one step in place is one step of an evaluation.
-/
namespace OpTape

variable {V : Type}

/-- Overwriting from the end of `values` on takes the entries behind it, one by one. -/
theorem overwrite_append (values : Array V) {vals rest : List V}
    (hroom : vals.length ≤ rest.length) :
    overwrite (values ++ rest.toArray) values.size vals
      = values ++ vals.toArray ++ (rest.drop vals.length).toArray := by
  induction vals generalizing values rest with
  | nil => simp [overwrite]
  | cons v vals ih =>
    cases rest with
    | nil => simp at hroom
    | cons a rest =>
      have hfirst : (values ++ (a :: rest).toArray).setIfInBounds values.size v
          = values.push v ++ rest.toArray := by
        apply Array.ext'
        simp
      rw [overwrite, hfirst, ← Array.size_push v, ih _ (by simpa using hroom)]
      apply Array.ext'
      simp

theorem extract_eq_drop (values : Array V) (n : Nat) :
    values.extract n values.size = (values.toList.drop n).toArray := by
  apply Array.ext'
  rw [Array.toList_extract, List.extract_eq_take_drop]
  exact List.take_of_length_le (by simp)

namespace State

/-- The state in place: behind the values so far stands what was in the array. -/
def inPlace (s : State V) (initial : Array V) : State V :=
  { s with values := s.values ++ initial.extract s.values.size initial.size }

end State

/-- Where an evaluation in place stops. -/
def Halt.inPlace (halt : Halt V) (initial : Array V) : Halt V :=
  { halt with state := halt.state.inPlace initial }

namespace State

/-- Values written at their place are values added. -/
theorem inPlace_overwrite (s : State V) {initial : Array V} {vals : List V}
    (hroom : s.values.size + vals.length ≤ initial.size) :
    overwrite (s.inPlace initial).values s.values.size vals
      = (State.inPlace { s with values := s.values ++ vals.toArray } initial).values := by
  have hlength : vals.length ≤ (initial.toList.drop s.values.size).length := by
    simp only [List.length_drop, Array.length_toList]
    omega
  rw [inPlace, inPlace, extract_eq_drop, extract_eq_drop, overwrite_append s.values hlength]
  simp [List.drop_drop]

/-- What an evaluation starts from, in place. -/
theorem inPlace_start {initial : Array V} {n : Nat} (hn : n ≤ initial.size) (out : String) :
    State.inPlace { values := initial.extract 0 n, out } initial = { values := initial, out } := by
  have hvalues : initial.extract 0 n
      ++ initial.extract (initial.extract 0 n).size initial.size = initial := by
    apply Array.ext'
    simp [hn]
  rw [inPlace, hvalues]

variable {s : State V} {initial : Array V} {u : Usage V}

theorem applyAt_inPlace {e : Effect V} (he : e.IsOf u)
    (hroom : s.values.size + u.resultCount ≤ initial.size) :
    (s.inPlace initial).applyAt s.values.size e = (s.apply e).inPlace initial := by
  cases e with
  | results vals =>
    have hlength : s.values.size + vals.length ≤ initial.size := he.2 ▸ hroom
    simp only [applyAt, apply, append_list_eq, s.inPlace_overwrite hlength]
    rfl
  | compared | started | stored | printed => rfl

/-- The note on a usage shows the results it wrote. -/
theorem extract_inPlace {e : Effect V} (he : e.IsOf u) :
    (((s.apply e).inPlace initial).values.extract s.values.size
      (s.values.size + u.resultCount)).toList = e.appended := by
  have hcount := he.counts.1
  simp [inPlace, hcount]

variable [Scalar V] {r : Registry V}

/-- A usage that fits sees nothing of what is behind the values so far. -/
theorem effect_inPlace (hfits : u.Fits s.values.size s.vectors.size) :
    u.effect r (s.inPlace initial).values (s.inPlace initial).vectors
      = u.effect r s.values s.vectors := by
  refine (Usage.Renames.refl u).effect_eq r (fun i hi j hij => ?_) fun w _ w' hww' => ?_
  · obtain rfl := Option.some.inj hij
    exact Array.getElem?_append_left (hfits.1 i hi)
  · exact ⟨(Option.some.inj hww').symm, rfl⟩

theorem spoilAt_inPlace (hroom : s.values.size + u.resultCount ≤ initial.size) :
    (s.inPlace initial).spoilAt s.values.size u = (s.spoil u).inPlace initial := by
  cases u with
  | foreign family id callId n inputs =>
    have hlength : s.values.size + (List.replicate n (Scalar.nan : V)).length ≤ initial.size := by
      simpa [Usage.resultCount] using hroom
    simp only [spoilAt, spoil, append_list_eq, s.inPlace_overwrite hlength]
    rfl
  | _ => rfl

theorem stepAt_inPlace (hfits : u.Fits s.values.size s.vectors.size)
    (hroom : s.values.size + u.resultCount ≤ initial.size) (note : List V → String) :
    (s.inPlace initial).stepAt r s.values.size u note
      = ((s.step r u note).map (·.inPlace initial)).mapError (·.inPlace initial) := by
  rw [stepAt, step, effect_inPlace hfits]
  cases he : u.effect r s.values s.vectors with
  | error fault =>
    simp only [spoilAt_inPlace hroom]
    rfl
  | ok e =>
    have hof := Usage.isOf_of_effect he
    simp only [applyAt_inPlace hof hroom, extract_inPlace hof]
    rfl

theorem counts_of_step {s₁ : State V} {note : List V → String} (h : s.step r u note = .ok s₁) :
    s₁.values.size = s.values.size + u.resultCount ∧
      s₁.vectors.size = s.vectors.size + if u.startsVector then 1 else 0 := by
  unfold step at h
  split at h
  · rename_i e he
    obtain rfl := Except.ok.inj h
    have hof := Usage.isOf_of_effect he
    refine ⟨?_, Rebuild.size_vectors_apply s hof⟩
    show (s.apply e).values.size = _
    rw [values_apply, Array.size_append, hof.counts.1]
    rfl
  · cases h

theorem size_of_run {s' : State V} {noted : List (Usage V × (List V → String))}
    (h : s.run r noted = .ok s') :
    s'.values.size = s.values.size + Usage.resultTotal (noted.map Prod.fst) := by
  induction noted generalizing s with
  | nil =>
    obtain rfl := Except.ok.inj h
    rfl
  | cons step noted ih =>
    obtain ⟨u, note⟩ := step
    obtain ⟨s₁, hstep, hrest⟩ := bind_eq_ok_iff.mp h
    rw [ih hrest, (counts_of_step hstep).1, Nat.add_assoc]
    rfl

/-- One run in place is one run. -/
theorem runAt_inPlace {noted : List (Usage V × (List V → String))}
    (hfit : Usage.FitAll s.values.size s.vectors.size (noted.map Prod.fst))
    (hroom : s.values.size + Usage.resultTotal (noted.map Prod.fst) ≤ initial.size) :
    (s.inPlace initial).runAt r s.values.size noted
      = ((s.run r noted).map (·.inPlace initial)).mapError (·.inPlace initial) := by
  induction noted generalizing s with
  | nil => rfl
  | cons step noted ih =>
    obtain ⟨u, note⟩ := step
    obtain ⟨hfits, hrest⟩ := hfit
    have hroom : s.values.size + (u.resultCount + Usage.resultTotal (noted.map Prod.fst))
        ≤ initial.size := hroom
    have hroom₁ : s.values.size + u.resultCount ≤ initial.size := by omega
    rw [runAt, run, stepAt_inPlace hfits hroom₁]
    cases hstep : s.step r u note with
    | error halt => rfl
    | ok s₁ =>
      obtain ⟨hvalues, hvectors⟩ := counts_of_step hstep
      have hnext := ih (s := s₁) (by rwa [hvalues, hvectors]) (by omega)
      rw [hvalues] at hnext
      exact hnext

end State

namespace Tape

variable {t : Tape V}

theorem getElem?_independents {initial : Array V} (hsize : initial.size = t.valueCount) (i : Nat) :
    (initial.extract 0 t.indCount)[i]? = if i < t.indCount then initial[i]? else none := by
  have hcount := t.valueCount_eq
  have hstop : min t.indCount initial.size - 0 = t.indCount := by omega
  rw [Array.getElem?_extract, Nat.zero_add, hstop]

variable [Scalar V]

theorem map_fst_annotate (first : Nat) (p : Packed V) (us : List (Usage V)) :
    (Trace.annotate first p us).map Prod.fst = us := by
  induction us generalizing first p with
  | nil => rfl
  | cons u us ih => rw [Trace.annotate, List.map_cons, ih]

theorem map_fst_noted (t : Tape V) (traced : Bool) : (t.noted traced).map Prod.fst = t.usages := by
  cases traced with
  | true => exact map_fst_annotate ..
  | false =>
    rw [noted, if_neg Bool.false_ne_true, List.map_map]
    exact List.map_id _

/-- The state in which an evaluation begins, before the zero constant. -/
def firstState (t : Tape V) (traced : Bool) (initial : Array V) : State V :=
  { values := initial.extract 0 t.indCount, out := t.heading traced initial }

theorem size_firstState (traced : Bool) {initial : Array V} (hsize : initial.size = t.valueCount) :
    (t.firstState traced initial).values.size = t.indCount := by
  have hcount := resultTotal_usages t
  simp only [firstState, Array.size_extract]
  omega

/-- The usages of a tape in order fit behind its first state. -/
theorem WellFormed.fitAll_noted (ht : t.WellFormed) (traced : Bool) {initial : Array V}
    (hsize : initial.size = t.valueCount) :
    Usage.FitAll (t.firstState traced initial).values.size
      (t.firstState traced initial).vectors.size ((t.noted traced).map Prod.fst) := by
  rw [map_fst_noted, size_firstState traced hsize]
  exact ht.fitAll_usages

/-- What is left of an evaluation when the run of its usages has ended. -/
def leave (t : Tape V) (traced : Bool) (initial : Array V) :
    Except (Halt V) (State V) → Evaluation V
  | .error halt =>
    { outcome := .error halt.fault
      values := halt.state.values ++ initial.extract halt.state.values.size initial.size
      out := halt.state.out }
  | .ok s =>
    match t.dependents.mapM (entry s.values) with
    | .error fault => { outcome := .error fault, values := s.values, out := s.out }
    | .ok dependents =>
      { outcome := .ok { dependents, compareFalse := s.compareFalse }
        values := s.values
        out := s.out ++ if traced then Trace.dependentBlock t.dependents dependents else "" }

theorem evaluate_eq (r : Registry V) (traced : Bool) {initial : Array V}
    (hsize : initial.size = t.valueCount) : t.evaluate r traced initial
      = t.leave traced initial ((t.firstState traced initial).run r (t.noted traced)) := by
  rw [evaluate, if_pos hsize]
  rfl

/-- On a tape in order, evaluating in place is evaluating, whatever the array held. -/
theorem WellFormed.evaluateInPlace_eq (ht : t.WellFormed) (r : Registry V) (traced : Bool)
    (initial : Array V) : t.evaluateInPlace r traced initial = t.evaluate r traced initial := by
  by_cases hsize : initial.size = t.valueCount
  · have hcount := resultTotal_usages t
    let start := t.firstState traced initial
    have hstart : start.values.size = t.indCount := size_firstState traced hsize
    have hplace : start.inPlace initial = { values := initial, out := t.heading traced initial } :=
      State.inPlace_start (by omega) _
    have hroom : start.values.size + Usage.resultTotal ((t.noted traced).map Prod.fst)
        ≤ initial.size := by
      rw [map_fst_noted]
      omega
    have hrun := State.runAt_inPlace (r := r) (ht.fitAll_noted traced hsize) hroom
    rw [hplace, hstart] at hrun
    rw [evaluate_eq r traced hsize, evaluateInPlace, if_pos hsize]
    simp only [hrun]
    cases hend : start.run r (t.noted traced) with
    | error halt => rfl
    | ok s =>
      have hfull : s.inPlace initial = s := by
        have hvalues := State.size_of_run hend
        rw [map_fst_noted, hstart, hcount, ← hsize] at hvalues
        rw [State.inPlace, hvalues, Array.extract_eq_empty_of_le (Nat.le_of_eq (Nat.min_self _)),
          Array.append_empty]
      have hok : ((Except.ok s : Except (Halt V) (State V)).map (·.inPlace initial)).mapError
          (·.inPlace initial) = .ok s := congrArg Except.ok hfull
      rw [hok]
      rfl
  · simp only [evaluateInPlace, evaluate, if_neg hsize]

end Tape

end OpTape
