import OpTape.Proofs.Agreement
import OpTape.Proofs.InPlace
import OpTape.Proofs.Reachable
import OpTape.Proofs.SumFusion
/-
  An evaluation solves the equations of its tape. Each usage other than a load says what its
  results are, given its operands; values never change once they are there, so what held when a
  usage was evaluated holds of the final values (`State.solvedAll_of_run`). Operands stand before
  their usage, so the equations leave nothing open but what the loads bring
  (`Usage.SolvedAll.unique`).
-/
namespace OpTape

variable {V : Type} [Scalar V]

namespace Usage

/-- The entries from index `first` on are what the usage computes from its operands. A load is
not asked for anything, since what it brings depends on its vector. -/
def SolvedAt (u : Usage V) (r : Registry V) (values : Array V) (first : Nat) : Prop :=
  u.kind ≠ .load → ∃ results, u.compute r (entry values) = .ok results ∧
    results.length = u.resultCount ∧ ∀ k < results.length, values[first + k]? = results[k]?

/-- Each usage of a list is solved, the first with results from index `first` on. -/
def SolvedAll (r : Registry V) (values : Array V) : (first : Nat) → List (Usage V) → Prop
  | _, [] => True
  | first, u :: rest => u.SolvedAt r values first ∧ SolvedAll r values (first + u.resultCount) rest

/-- The loads of a list bring the same into both arrays. -/
def LoadsAgree (values values' : Array V) : (first : Nat) → List (Usage V) → Prop
  | _, [] => True
  | first, u :: rest =>
    (u.kind = .load → values'[first]? = values[first]?) ∧
      LoadsAgree values values' (first + u.resultCount) rest

/-- The usage is a comparison that does not hold of the values of its operands. -/
def failsOn (values : Array V) : Usage V → Bool
  | compare cmp left right =>
    match values[left]?, values[right]? with
    | some a, some b => !cmp.holds a b
    | _, _ => false
  | _ => false

variable {r : Registry V} {values : Array V} {u : Usage V}

/-- What a usage computes does not change when values are added. -/
theorem compute_append (hreads : ∀ i ∈ u.reads, i < values.size) (r : Registry V)
    (more : Array V) : u.compute r (entry (values ++ more)) = u.compute r (entry values) :=
  u.compute_congr r fun i hi => entry_append_left (hreads i hi)

theorem failsOn_append (hreads : ∀ i ∈ u.reads, i < values.size) (more : Array V) :
    u.failsOn (values ++ more) = u.failsOn values := by
  cases u with
  | compare cmp x y =>
    have hx : x < values.size := hreads x (by simp [reads, args])
    have hy : y < values.size := hreads y (by simp [reads, args])
    rw [failsOn, failsOn, Array.getElem?_append_left hx, Array.getElem?_append_left hy]
  | _ => rfl

/-- The results that a usage has just added are what it computes, and go on to be. -/
theorem solvedAt_of_effect {vectors : Array (Array V)} {e : Effect V}
    (hreads : ∀ i ∈ u.reads, i < values.size) (he : u.effect r values vectors = .ok e)
    (more : Array V) :
    u.SolvedAt r (values ++ e.appended.toArray ++ more) values.size := by
  -- a usage without results computes none, so nothing is asked of the entries
  have hidle {w : Usage V} (hcompute : w.compute r (entry (values ++ e.appended.toArray ++ more))
      = .ok []) (hcount : w.resultCount = 0) :
      w.SolvedAt r (values ++ e.appended.toArray ++ more) values.size :=
    fun _ => ⟨[], hcompute, hcount.symm, by simp⟩
  intro hkind
  cases u with
  | load => exact absurd rfl hkind
  | compare | vector | store | print => exact hidle rfl rfl hkind
  | _ =>
    rw [effect_of_isPure rfl, map_eq_ok_iff] at he
    obtain ⟨vals, hvals, rfl⟩ := he
    refine ⟨vals, ?_, length_of_compute rfl hvals, fun k hk => ?_⟩
    · rw [Array.append_assoc, compute_append hreads, hvals]
    · rw [Array.append_assoc, Array.getElem?_append_right (Nat.le_add_right _ _),
        Nat.add_sub_cancel_left, Effect.appended, Array.getElem?_append_left (by simpa using hk)]
      exact List.getElem?_toArray ..

/-- Equal entries before a usage and solved results give equal entries behind it. -/
theorem SolvedAt.agree {values' : Array V} {first : Nat} (h : u.SolvedAt r values first)
    (h' : u.SolvedAt r values' first) (hreads : ∀ i ∈ u.reads, i < first)
    (hbefore : ∀ i < first, values'[i]? = values[i]?)
    (hload : u.kind = .load → values'[first]? = values[first]?) :
    ∀ i < first + u.resultCount, values'[i]? = values[i]? := by
  intro i hi
  by_cases hlt : i < first
  · exact hbefore i hlt
  obtain ⟨k, rfl⟩ := Nat.exists_eq_add_of_le (Nat.le_of_not_lt hlt)
  by_cases hkind : u.kind = .load
  · have hcount : u.resultCount = 1 := by
      cases u <;> first | rfl | cases hkind
    obtain rfl : k = 0 := by omega
    exact hload hkind
  · obtain ⟨results, hresults, hlength, hentries⟩ := h hkind
    obtain ⟨results', hresults', -, hentries'⟩ := h' hkind
    have hsame : u.compute r (entry values') = u.compute r (entry values) :=
      u.compute_congr r fun j hj => by simp only [entry, hbefore j (hreads j hj)]
    obtain rfl : results' = results :=
      Except.ok.inj (hresults'.symm.trans (hsame.trans hresults))
    have hk : k < results'.length := by omega
    rw [hentries k hk, hentries' k hk]

/-- The equations leave nothing open but what the loads bring. -/
theorem SolvedAll.unique {values' : Array V} {first vectors : Nat} {us : List (Usage V)}
    (hfit : FitAll first vectors us) (h : SolvedAll r values first us)
    (h' : SolvedAll r values' first us) (hloads : LoadsAgree values values' first us)
    (hbefore : ∀ i < first, values'[i]? = values[i]?) :
    ∀ i < first + resultTotal us, values'[i]? = values[i]? := by
  induction us generalizing first vectors with
  | nil => exact hbefore
  | cons u us ih =>
    have hagree := h.1.agree h'.1 hfit.1.1 hbefore hloads.1
    have hrest := ih hfit.2 h.2 h'.2 hloads.2 hagree
    rwa [Nat.add_assoc] at hrest

end Usage

namespace State

variable {r : Registry V} {s s' : State V}

theorem step_eq_ok_iff {u : Usage V} {note : List V → String} :
    s.step r u note = .ok s' ↔ ∃ e, u.effect r s.values s.vectors = .ok e ∧
      (s.apply e).write (note e.appended) = s' := by
  unfold step
  cases u.effect r s.values s.vectors <;> simp

/-- The count of an effect is one where a comparison fails. -/
theorem compareFalse_apply {u : Usage V} {e : Effect V}
    (he : u.effect r s.values s.vectors = .ok e) :
    (s.apply e).compareFalse = s.compareFalse + if u.failsOn s.values then 1 else 0 := by
  have hof := Usage.isOf_of_effect he
  cases u with
  | compare cmp x y =>
    obtain ⟨a, b, ha, hb, rfl⟩ := Usage.effect_compare he
    simp only [apply, Usage.failsOn, ha, hb]
    cases cmp.holds a b <;> rfl
  | _ =>
    cases e with
    | compared => cases hof
    | results | started | stored | printed => rfl

/-- A run solves the usages it evaluates, and counts the comparisons that fail in the end. -/
theorem solvedAll_of_run {noted : List (Usage V × (List V → String))}
    (hfit : Usage.FitAll s.values.size s.vectors.size (noted.map Prod.fst))
    (h : s.run r noted = .ok s') :
    (∃ more, s'.values = s.values ++ more) ∧
      Usage.SolvedAll r s'.values s.values.size (noted.map Prod.fst) ∧
      s'.compareFalse
        = s.compareFalse + (noted.map Prod.fst).countP (Usage.failsOn s'.values) := by
  -- the rest of the run only adds values, so what the first usage read stays as it was
  induction noted generalizing s with
  | nil =>
    obtain rfl := Except.ok.inj h
    exact ⟨⟨#[], by simp⟩, trivial, by simp⟩
  | cons step noted ih =>
    obtain ⟨u, note⟩ := step
    obtain ⟨hfits, hrest⟩ := hfit
    obtain ⟨s₁, hstep, hrun⟩ := bind_eq_ok_iff.mp h
    obtain ⟨hvalues, hvectors⟩ := counts_of_step hstep
    have hfit₁ : Usage.FitAll s₁.values.size s₁.vectors.size (noted.map Prod.fst) := by
      rwa [hvalues, hvectors]
    obtain ⟨⟨more, hmore⟩, hsolved, hcount⟩ := ih hfit₁ hrun
    obtain ⟨e, he, rfl⟩ := step_eq_ok_iff.mp hstep
    have hgrown : s'.values = s.values ++ e.appended.toArray ++ more := by
      rw [hmore]
      exact congrArg (· ++ more) (values_apply s e)
    refine ⟨⟨e.appended.toArray ++ more, by rw [hgrown, Array.append_assoc]⟩, ⟨?_, ?_⟩, ?_⟩
    · rw [hgrown]
      exact Usage.solvedAt_of_effect hfits.1 he more
    · rwa [hvalues] at hsolved
    · have hfails : u.failsOn s'.values = u.failsOn s.values := by
        rw [hgrown, Array.append_assoc, Usage.failsOn_append hfits.1]
      have hfirst := compareFalse_apply he
      rw [hcount, List.map_cons, List.countP_cons, hfails]
      show (s.apply e).compareFalse + _ = _
      omega

end State

namespace Tape

variable {t : Tape V}

/-- The array holds the independents, then zero, and solves every usage of the tape. -/
structure Solves (t : Tape V) (r : Registry V) (initial values : Array V) : Prop where
  size : values.size = t.valueCount
  independents : ∀ i < t.indCount, values[i]? = initial[i]?
  zero : values[t.zeroIndex]? = some Scalar.zero
  results : Usage.SolvedAll r values t.indCount t.usages

/-- There is one solution with the given independents and loads. -/
theorem Solves.unique (ht : t.WellFormed) {r : Registry V} {initial values values' : Array V}
    (h : t.Solves r initial values) (h' : t.Solves r initial values')
    (hloads : Usage.LoadsAgree values values' t.indCount t.usages) : values' = values := by
  have hagree := Usage.SolvedAll.unique ht.fitAll_usages h.results h'.results hloads
    fun i hi => (h'.independents i hi).trans (h.independents i hi).symm
  rw [resultTotal_usages] at hagree
  apply Array.ext (h'.size.trans h.size.symm)
  intro i hi hi'
  have hentry := hagree i (h'.size ▸ hi)
  rw [Array.getElem?_eq_getElem hi, Array.getElem?_eq_getElem hi'] at hentry
  exact Option.some.inj hentry

theorem leave_eq_ok {traced : Bool} {initial : Array V} {run : Except (Halt V) (State V)}
    {a : Answer V} (h : (t.leave traced initial run).outcome = .ok a) :
    ∃ s, run = .ok s ∧ (t.leave traced initial run).values = s.values ∧
      s.compareFalse = a.compareFalse := by
  cases run with
  | error halt => cases h
  | ok s =>
    simp only [leave] at h ⊢
    cases hread : t.dependents.mapM (entry s.values) with
    | error fault =>
      rw [hread] at h
      cases h
    | ok dependents =>
      rw [hread] at h
      obtain rfl := Except.ok.inj h
      exact ⟨s, rfl, rfl, rfl⟩

/-- The final values of an evaluation solve the tape, and the comparisons that fail on them are
counted. -/
theorem WellFormed.solves (ht : t.WellFormed) {r : Registry V} {traced : Bool}
    {initial : Array V} (hsize : initial.size = t.valueCount) {a : Answer V}
    (ha : (t.evaluate r traced initial).outcome = .ok a) :
    t.Solves r initial (t.evaluate r traced initial).values ∧
      a.compareFalse
        = t.usages.countP (Usage.failsOn (t.evaluate r traced initial).values) := by
  rw [evaluate_eq r traced hsize] at ha ⊢
  obtain ⟨s, hrun, hvalues, hcount⟩ := leave_eq_ok ha
  have hstart := size_firstState traced hsize
  obtain ⟨⟨more, hmore⟩, hsolved, hfails⟩ :=
    State.solvedAll_of_run (ht.fitAll_noted traced hsize) hrun
  have hlast := State.size_of_run hrun
  rw [map_fst_noted, hstart] at hsolved hlast
  rw [map_fst_noted] at hfails
  rw [hvalues]
  refine ⟨⟨?_, fun i hi => ?_, ?_, hsolved⟩, ?_⟩
  · rw [hlast, resultTotal_usages]
  · rw [hmore, Array.getElem?_append_left (hstart.symm ▸ hi), firstState,
      getElem?_independents hsize, if_pos hi]
  · obtain ⟨results, hresults, -, hentries⟩ := hsolved.1 (by simp [Usage.kind])
    obtain rfl := Except.ok.inj hresults
    exact hentries 0 (by simp)
  · have hnone : (t.firstState traced initial).compareFalse = 0 := rfl
    rw [← hcount, hfails, hnone, Nat.zero_add]

/-- Nothing but the independents shows in an evaluation that succeeds, and of one that fails
nothing else shows but in entries it did not reach. -/
theorem evaluate_congr (t : Tape V) (r : Registry V) (traced : Bool) {initial initial' : Array V}
    (hsize : initial.size = t.valueCount) (hsize' : initial'.size = t.valueCount)
    (hsame : ∀ i < t.indCount, initial'[i]? = initial[i]?) :
    (t.evaluate r traced initial').outcome = (t.evaluate r traced initial).outcome ∧
      (t.evaluate r traced initial').out = (t.evaluate r traced initial).out ∧
      ∀ a, (t.evaluate r traced initial).outcome = .ok a →
        (t.evaluate r traced initial').values = (t.evaluate r traced initial).values := by
  have hextract : initial'.extract 0 t.indCount = initial.extract 0 t.indCount := by
    apply Array.ext_getElem?
    intro i
    rw [getElem?_independents hsize', getElem?_independents hsize]
    split
    · exact hsame i ‹_›
    · rfl
  have hstart : t.firstState traced initial' = t.firstState traced initial := by
    rw [firstState, firstState, heading, heading, hextract]
  rw [evaluate_eq r traced hsize, evaluate_eq r traced hsize', hstart]
  cases (t.firstState traced initial).run r (t.noted traced) with
  | error halt => exact ⟨rfl, rfl, fun a ha => by cases ha⟩
  | ok s => exact ⟨rfl, rfl, fun _ _ => rfl⟩

variable [DecidableEq V]

/-- Evaluation in place computes the one solution of the equations of a tape. It evaluates like
`Tape.evaluate`, so its registered functions see the final values of their operands. If it
succeeds, the array holds the independents, zero and for each usage but a load what the usage
computes from the final values; the failed comparisons are those that fail on these values; and
no other array with the same independents and loads solves the tape. What the other entries held
before does not matter. -/
theorem evaluateInPlace_solves {t : Tape V} (ht : t.Reachable) (r : Registry V) (traced : Bool)
    {initial : Array V} (hsize : initial.size = t.valueCount) :
    t.evaluateInPlace r traced initial = t.evaluate r traced initial ∧
    (∀ a, (t.evaluateInPlace r traced initial).outcome = .ok a →
      t.Solves r initial (t.evaluateInPlace r traced initial).values ∧
      a.compareFalse
        = t.usages.countP (Usage.failsOn (t.evaluateInPlace r traced initial).values) ∧
      ∀ values', t.Solves r initial values' →
        Usage.LoadsAgree (t.evaluateInPlace r traced initial).values values' t.indCount t.usages →
        values' = (t.evaluateInPlace r traced initial).values) ∧
    ∀ initial', initial'.size = t.valueCount → (∀ i < t.indCount, initial'[i]? = initial[i]?) →
      (t.evaluateInPlace r traced initial').outcome = (t.evaluateInPlace r traced initial).outcome ∧
      (t.evaluateInPlace r traced initial').out = (t.evaluateInPlace r traced initial).out ∧
      ∀ a, (t.evaluateInPlace r traced initial).outcome = .ok a →
        (t.evaluateInPlace r traced initial').values
          = (t.evaluateInPlace r traced initial).values := by
  have hwell := ht.wellFormed
  simp only [hwell.evaluateInPlace_eq]
  refine ⟨trivial, fun a ha => ?_, fun initial' hsize' hsame => ?_⟩
  · obtain ⟨hsolves, hcount⟩ := hwell.solves hsize ha
    exact ⟨hsolves, hcount, fun values' h' hloads => hsolves.unique hwell h' hloads⟩
  · exact evaluate_congr t r traced hsize hsize' hsame

/-- A sum that goes through a vector, is compared and handed on. -/
def storedSum : Tape Rat :=
  let read := ((((new 2 {}).push (.binary .add 0 1)).push (.vector [0])).push
    (.store 0 2 3)).push (.load 0 2)
  { (read.push (.compare .lt 4 0)).push (.foreign .call 0 0 1 [4, 1]) with deps := some [5] }

theorem evaluateInPlace_solves_storedSum : storedSum.Reachable ∧
    (storedSum.evaluateInPlace .selecting false #[1, 2, 7, 7, 7, 7]).outcome
      = .ok { dependents := [3], compareFalse := 1 } ∧
    (storedSum.evaluateInPlace .selecting false #[1, 2, 7, 7, 7, 7]).values
      = #[1, 2, 0, 3, 3, 3] ∧
    storedSum.Solves .selecting #[1, 2, 7, 7, 7, 7] #[1, 2, 0, 3, 3, 3] ∧
    storedSum.usages.countP (Usage.failsOn #[1, 2, 0, 3, 3, 3]) = 1 ∧
    (storedSum.evaluateInPlace .selecting false #[1, 2, 4, 5, 6, 8]).values
      = #[1, 2, 0, 3, 3, 3] := by
  have hreachable : storedSum.Reachable :=
    ((((((Reachable.new 2 {}).push (by decide)).push (by decide)).push (by decide)).push
      (by decide)).push (by decide)).push (by decide) |>.withDependents rfl (by decide)
  have ha : (storedSum.evaluateInPlace .selecting false #[1, 2, 7, 7, 7, 7]).outcome
      = .ok { dependents := [3], compareFalse := 1 } := by cbv
  have hvalues : (storedSum.evaluateInPlace .selecting false #[1, 2, 7, 7, 7, 7]).values
      = #[1, 2, 0, 3, 3, 3] := by cbv
  obtain ⟨-, hsolved, hstale⟩ := evaluateInPlace_solves hreachable .selecting false
    (show #[1, 2, 7, 7, 7, 7].size = storedSum.valueCount from rfl)
  obtain ⟨hsolves, hcount, -⟩ := hsolved _ ha
  obtain ⟨-, -, hsame⟩ := hstale #[1, 2, 4, 5, 6, 8] rfl (by decide)
  rw [hvalues] at hsolves hcount
  exact ⟨hreachable, ha, hvalues, hsolves, hcount.symm, (hsame _ ha).trans hvalues⟩

end Tape

end OpTape
