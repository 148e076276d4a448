import OpTape.Proofs.Advancing
import OpTape.Proofs.TraceLines
/-
  What an evaluation writes. At each usage stands the text that it prints, and in a traced
  evaluation its line behind it; both can be read off the final values, since values never change
  once they are there (`out_of_stateAt`). A trace is only written: the state without the output is
  the same with and without one, so nothing that is computed depends on it (`State.mute_run`).
-/
namespace OpTape

variable {V : Type} [Scalar V]

/-! ## Runs without their output -/

namespace State

/-- The state without what was written. -/
def mute (s : State V) : State V := { s with out := "" }

/-- How a run ended, without what was written. -/
def muteResult : Except (Halt V) (State V) → Except (Halt V) (State V)
  | .ok s => .ok s.mute
  | .error halt => .error { halt with state := halt.state.mute }

variable {r : Registry V} {s s' : State V}

theorem mute_spoil (s : State V) (u : Usage V) : (s.spoil u).mute = s.mute.spoil u := by
  cases u <;> rfl

omit [Scalar V] in
theorem mute_eq_iff : s.mute = s'.mute ↔
    s.values = s'.values ∧ s.vectors = s'.vectors ∧ s.compareFalse = s'.compareFalse := by
  simp [mute]

omit [Scalar V] in
theorem mute_apply_write (s : State V) (e : Effect V) (text : String) :
    ((s.apply e).write text).mute = (s.mute.apply e).mute := by
  cases e <;> rfl

/-- The notes on the usages change nothing but what is written. -/
theorem mute_run {noted noted' : List (Usage V × (List V → String))}
    (hnoted : noted.map Prod.fst = noted'.map Prod.fst) (h : s.mute = s'.mute) :
    muteResult (s.run r noted) = muteResult (s'.run r noted') := by
  induction noted generalizing noted' s s' with
  | nil =>
    cases noted' with
    | nil => exact congrArg Except.ok h
    | cons => cases hnoted
  | cons step noted ih =>
    cases noted' with
    | nil => cases hnoted
    | cons step' noted' =>
      obtain ⟨u, note⟩ := step
      obtain ⟨u', note'⟩ := step'
      obtain ⟨rfl, hrest⟩ : u = u' ∧ _ := List.cons.inj hnoted
      obtain ⟨hvalues, hvectors, -⟩ := mute_eq_iff.mp h
      rw [run, run, State.step, State.step, hvalues, hvectors]
      cases u.effect r s'.values s'.vectors with
      | ok e =>
        refine ih hrest ?_
        rw [mute_apply_write, mute_apply_write, h]
      | error fault =>
        show Except.error _ = Except.error _
        rw [mute_spoil, mute_spoil, h]

end State

/-! ## What is written at a usage -/

namespace Usage

/-- The text that a usage prints: that of a print whose flag is positive. -/
def printed (values : Array V) : Usage V → String
  | print before after flag value =>
    match values[flag]?, values[value]? with
    | some f, some x => if Scalar.lt Scalar.zero f then before ++ Scalar.text x ++ after else ""
    | _, _ => ""
  | _ => ""

variable {r : Registry V} {u : Usage V}

/-- Only a print whose flag is positive has a text. -/
theorem exists_of_printed_ne {values : Array V} (h : u.printed values ≠ "") :
    ∃ before after flag value f x, u = print before after flag value ∧ values[flag]? = some f ∧
      Scalar.lt Scalar.zero f = true ∧ values[value]? = some x ∧
      u.printed values = before ++ Scalar.text x ++ after := by
  cases u with
  | print before after flag value =>
    simp only [printed] at h ⊢
    cases hf : values[flag]? with
    | none =>
      rw [hf] at h
      exact absurd rfl h
    | some f =>
      cases hx : values[value]? with
      | none =>
        rw [hf, hx] at h
        exact absurd rfl h
      | some x =>
        simp only [hf, hx] at h ⊢
        by_cases hpositive : Scalar.lt Scalar.zero f = true
        · exact ⟨before, after, flag, value, f, x, rfl, hf, hpositive, hx, if_pos hpositive⟩
        · exact absurd (if_neg hpositive) h
  | _ => exact absurd rfl h

/-- A usage that is evaluated writes the text that it prints. -/
theorem out_apply {s : State V} {e : Effect V} (he : u.effect r s.values s.vectors = .ok e)
    {values : Array V} (hvalues : ∀ (i : Nat) a, s.values[i]? = some a → values[i]? = some a) :
    (s.apply e).out = s.out ++ u.printed values := by
  have hof := isOf_of_effect he
  cases u with
  | print before after flag value =>
    obtain ⟨x, f, hx, hf, rfl⟩ := effect_print he
    simp only [printed, hvalues flag f hf, hvalues value x hx]
    rfl
  | _ =>
    cases e with
    | printed text => cases hof
    | results | compared | started | stored => exact (String.append_empty).symm

end Usage

/-- The values of the results at a slot. -/
def Slot.valuesIn (s : Slot) (values : Array V) : List V :=
  (values.extract s.firstResult (s.firstResult + s.resultCount)).toList

omit [Scalar V] in
/-- Results that were appended are found at their slot. -/
theorem Slot.valuesIn_append {s : Slot} {values : Array V} {results : List V}
    (hfirst : values.size = s.firstResult) (hcount : s.resultCount = results.length)
    (more : Array V) : s.valuesIn (values ++ results.toArray ++ more) = results := by
  simp [valuesIn, ← hfirst, hcount, Array.append_assoc]

namespace Tape

/-- What the evaluation writes at a usage, read off the final values: what it prints, and behind
it the note on its results. -/
def written (t : Tape V) (traced : Bool) (values : Array V) (s : Slot) (u : Usage V) : String :=
  u.printed values ++ t.note traced s u (s.valuesIn values)

/-- What the evaluation writes at the first `n` usages. -/
def transcript (t : Tape V) (traced : Bool) (values : Array V) (n : Nat) : String :=
  String.join ((t.slotted.take n).map fun (s, u) => t.written traced values s u)

variable {t : Tape V} {r : Registry V} {traced : Bool} {initial : Array V} {s s' : State V}
  {k : Nat} {slot : Slot} {u : Usage V}

theorem transcript_succ (hk : t.slotted[k]? = some (slot, u)) (values : Array V) :
    t.transcript traced values (k + 1)
      = t.transcript traced values k ++ t.written traced values slot u := by
  rw [transcript, transcript, List.take_add_one, hk, List.map_append, String.join_append]
  simp

/-- The output behind some usages is the heading and what they write. -/
theorem out_of_stateAt (hsize : initial.size = t.valueCount) {values more : Array V}
    (hk : k ≤ t.usages.length) (hs : t.stateAt r traced initial k = .ok s)
    (hvalues : values = s.values ++ more) :
    s.out = t.heading traced initial ++ t.transcript traced values k := by
  induction k generalizing s more with
  | zero =>
    obtain rfl := Except.ok.inj hs
    exact (String.append_empty).symm
  | succ k ih =>
    have hslotted := getElem?_slotted (List.getElem?_eq_getElem hk)
    obtain ⟨s₀, e, hs₀, he, rfl⟩ := (stateAt_succ_eq_ok_iff hslotted).mp hs
    have hgrown : values = s₀.values ++ e.appended.toArray ++ more := by
      rw [hvalues]
      exact congrArg (· ++ more) (State.values_apply s₀ e)
    have hprefix (i : Nat) (a : V) (ha : s₀.values[i]? = some a) : values[i]? = some a := by
      rw [hgrown, Array.append_assoc,
        Array.getElem?_append_left (Array.getElem?_eq_some_iff.mp ha).1, ha]
    have hbefore := ih (Nat.le_of_lt hk) hs₀ (by rw [hgrown, Array.append_assoc])
    have hfirst := (counts_of_stateAt hsize hslotted hs₀).1
    have hcount := (Usage.isOf_of_effect he).counts.1
    have hresults : Slot.valuesIn _ values = e.appended :=
      hgrown ▸ Slot.valuesIn_append hfirst hcount more
    rw [transcript_succ hslotted, written, hresults]
    show (s₀.apply e).out ++ _ = _
    rw [Usage.out_apply he hprefix, hbefore]
    simp only [String.append_assoc]

/-- What an evaluation leaves behind, apart from the output, is that of its run without the
output. -/
theorem leave_congr {run run' : Except (Halt V) (State V)} (traced traced' : Bool)
    (h : State.muteResult run = State.muteResult run') :
    (t.leave traced initial run).outcome = (t.leave traced' initial run').outcome ∧
      (t.leave traced initial run).values = (t.leave traced' initial run').values := by
  cases run with
  | error halt =>
    cases run' with
    | ok s => cases h
    | error halt' =>
      obtain ⟨hfault, hmute⟩ := Halt.mk.inj (Except.error.inj h)
      obtain ⟨hvalues, -, -⟩ := State.mute_eq_iff.mp hmute
      simp only [leave, hfault, hvalues, and_self]
  | ok s =>
    cases run' with
    | error halt => cases h
    | ok s' =>
      obtain ⟨hvalues, -, hcount⟩ := State.mute_eq_iff.mp (Except.ok.inj h)
      simp only [leave, hvalues, hcount]
      cases t.dependents.mapM (entry s'.values) <;> exact ⟨rfl, rfl⟩

/-- An evaluation computes the same with and without a trace. -/
theorem WellFormed.evaluateInPlace_quiet (ht : t.WellFormed) (r : Registry V)
    (hsize : initial.size = t.valueCount) (traced traced' : Bool) :
    (t.evaluateInPlace r traced initial).outcome
        = (t.evaluateInPlace r traced' initial).outcome ∧
      (t.evaluateInPlace r traced initial).values
        = (t.evaluateInPlace r traced' initial).values := by
  rw [ht.evaluateInPlace_eq_leave r traced hsize, ht.evaluateInPlace_eq_leave r traced' hsize]
  exact leave_congr traced traced'
    (State.mute_run (by rw [map_fst_noted, map_fst_noted]) rfl)

/-- The output of an evaluation that succeeds. -/
theorem WellFormed.out_of_outcome_ok (ht : t.WellFormed) (hsize : initial.size = t.valueCount)
    {a : Answer V} (ha : (t.evaluateInPlace r traced initial).outcome = .ok a) :
    a.dependents.map some
        = t.dependents.map ((t.evaluateInPlace r traced initial).values[·]?) ∧
      (t.evaluateInPlace r traced initial).out
        = t.heading traced initial
          ++ t.transcript traced (t.evaluateInPlace r traced initial).values t.usages.length
          ++ if traced then Trace.dependentBlock t.dependents a.dependents else "" := by
  have hleave := ht.evaluateInPlace_eq_leave r traced hsize
  rw [hleave] at ha ⊢
  cases hrun : (t.firstState traced initial).run r (t.noted traced) with
  | error halt =>
    rw [hrun] at ha
    cases ha
  | ok s =>
    rw [hrun] at ha
    have hall : t.stateAt r traced initial t.usages.length = .ok s := by
      rw [stateAt, List.take_of_length_le, hrun]
      rw [← map_fst_noted t traced, List.length_map]
    have hout := out_of_stateAt hsize (Nat.le_refl _) hall (Array.append_empty).symm
    cases hread : t.dependents.mapM (entry s.values) with
    | error fault =>
      rw [leave, hread] at ha
      cases ha
    | ok ds =>
      rw [leave, hread] at ha ⊢
      obtain rfl := Except.ok.inj ha
      exact ⟨(map_of_mapM_ok hread fun i a => entry_eq_ok_iff.mp).symm, congrArg (· ++ _) hout⟩

/-! ## Tracing -/

/-- The line of a usage in a trace: a function of what is recorded at its slot and of the values of
its results. -/
def line (t : Tape V) (values : Array V) (s : Slot) (u : Usage V) : String :=
  Trace.usageLine s.firstResult (t.pack.slotArgs s) u (s.valuesIn values)

/-- Without a trace, only the texts of the prints are written. -/
theorem transcript_untraced (t : Tape V) (values : Array V) :
    t.transcript false values t.usages.length
      = String.join (t.usages.map (Usage.printed values)) := by
  have hwritten (s : Slot) (u : Usage V) : t.written false values s u = u.printed values :=
    String.append_empty
  rw [transcript, List.take_of_length_le (Nat.le_of_eq t.length_slotted), ← map_snd_slotted, List.map_map]
  simp only [hwritten]
  rfl

theorem transcript_traced (t : Tape V) (values : Array V) :
    t.transcript true values t.usages.length
      = String.join (t.slotted.map fun (s, u) => u.printed values ++ t.line values s u) := by
  rw [transcript, List.take_of_length_le (Nat.le_of_eq t.length_slotted)]
  rfl

variable [DecidableEq V]

/-- Tracing observes without interfering. An evaluation ends with the same values and the same
answer or error with and without a trace. If it succeeds, each usage has a text, which is empty but
for a print whose flag is positive; without a trace the output is these texts in order. With one,
it is a line for each independent under a title, then for each usage its text and a line made from
what is recorded at its slot and from the final values of its results, then under a title a line for
each dependent with its final value. -/
theorem evaluateInPlace_traced {t : Tape V} (ht : t.Reachable) (r : Registry V)
    {initial : Array V} (hsize : initial.size = t.valueCount) :
    (t.evaluateInPlace r true initial).outcome = (t.evaluateInPlace r false initial).outcome ∧
    (t.evaluateInPlace r true initial).values = (t.evaluateInPlace r false initial).values ∧
    ∀ a values, (t.evaluateInPlace r false initial).outcome = .ok a →
      (t.evaluateInPlace r false initial).values = values →
      (t.evaluateInPlace r false initial).out
        = String.join (t.usages.map (Usage.printed values)) ∧
      (∀ u ∈ t.usages, u.printed values ≠ "" → ∃ before after flag value f x,
        u = .print before after flag value ∧ values[flag]? = some f ∧
        Scalar.lt Scalar.zero f = true ∧ values[value]? = some x ∧
        u.printed values = before ++ Scalar.text x ++ after) ∧
      (t.evaluateInPlace r true initial).out
        = Trace.independentBlock (values.extract 0 t.indCount).toList
          ++ String.join (t.slotted.map fun (s, u) => u.printed values ++ t.line values s u)
          ++ Trace.dependentBlock t.dependents a.dependents ∧
      a.dependents.map some = t.dependents.map (values[·]?) ∧
      (∀ s u, ∃ body, t.line values s u = body ++ "\n") ∧
      (Trace.UnbrokenValues V →
        Trace.IsBlock "independent vector" t.indCount
          (Trace.independentBlock (values.extract 0 t.indCount).toList) ∧
        (∀ s u, Text.IsLine (t.line values s u)) ∧
        Trace.IsBlock "dependent vector" t.dependents.length
          (Trace.dependentBlock t.dependents a.dependents)) := by
  have hwell := ht.wellFormed
  obtain ⟨houtcome, hvalues⟩ := hwell.evaluateInPlace_quiet r hsize true false
  refine ⟨houtcome, hvalues, ?_⟩
  rintro a values ha rfl
  obtain ⟨hdependents, hplain⟩ := hwell.out_of_outcome_ok hsize ha
  obtain ⟨-, htraced⟩ := hwell.out_of_outcome_ok hsize (houtcome.trans ha)
  rw [transcript_untraced] at hplain
  rw [transcript_traced, hvalues] at htraced
  rw [hwell.extract_independents r false hsize]
  have hcount := t.valueCount_eq
  have hblock : (initial.extract 0 t.indCount).toList.length = t.indCount := by
    rw [Array.length_toList, Array.size_extract]
    omega
  refine ⟨?_, fun u _ => Usage.exists_of_printed_ne, htraced, hdependents,
    fun s u => Trace.exists_usageLine_eq .., fun htexts => ⟨?_, fun s u =>
      Trace.isLine_usageLine htexts .., ?_⟩⟩
  · rw [hplain]
    simp [heading]
  · have hlines := Trace.isBlock_independentBlock htexts (initial.extract 0 t.indCount).toList
    rwa [hblock] at hlines
  · refine Trace.isBlock_dependentBlock htexts ?_
    have hlength := congrArg List.length hdependents
    rwa [List.length_map, List.length_map] at hlength

/-- A tape that prints its input and negates it. -/
def announced : Tape Float :=
  { ((new 1 {}).push (.print "x = " "." 0 0)).push (.unary .neg 0) with deps := some [2] }

theorem evaluateInPlace_traced_announced : announced.Reachable ∧
    (announced.evaluateInPlace .empty true #[2, 0, 0]).outcome
      = .ok { dependents := [-2], compareFalse := 0 } ∧
    (announced.evaluateInPlace .empty true #[2, 0, 0]).values = #[2, 0, -2] ∧
    (announced.evaluateInPlace .empty false #[2, 0, 0]).out = "x = 2." ∧
    (announced.evaluateInPlace .empty true #[2, 0, 0]).out
      = "independent vector\n    0  2\n    1  con     0\nx = 2.    -  pri     [1 2] 0 0\n" ++
        "    2  neg     0 = -2\ndependent vector\n    0  v2 = -2\n" ∧
    Trace.IsBlock "independent vector" 1 (Trace.independentBlock [(2 : Float)]) := by
  have hreachable : announced.Reachable :=
    ((Reachable.new 1 {}).push (by decide)).push (by decide) |>.withDependents rfl (by decide)
  have ha : (announced.evaluateInPlace .empty false #[2, 0, 0]).outcome
      = .ok { dependents := [-2], compareFalse := 0 } := by with_unfolding_all rfl
  have hfinal : (announced.evaluateInPlace .empty false #[2, 0, 0]).values = #[2, 0, -2] := by
    decide +kernel
  obtain ⟨houtcome, hvalues, hout⟩ := evaluateInPlace_traced hreachable .empty
    (show #[2, 0, 0].size = announced.valueCount from rfl)
  obtain ⟨hplain, -, htraced, -, -, hlines⟩ := hout _ _ ha hfinal
  obtain ⟨hblock, -, -⟩ := hlines Binary64.unbroken_values
  exact ⟨hreachable, houtcome.trans ha, hvalues.trans hfinal, hplain.trans (by decide +kernel),
    htraced.trans (by decide +kernel), hblock⟩

end Tape

end OpTape
