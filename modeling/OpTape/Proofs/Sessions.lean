import OpTape.Session
import OpTape.Proofs.SelfContained
/-
  Sessions. `Performed` lists what a request can do to a session whose tape is in order and
  self-contained, and `Refused` why such a session refuses one (`performs`). Every index is
  checked against the tape as it is now, and every pass hands on a tape of the same sort, so this
  is what requests do throughout (`selfContained_after`). What a session shows is what its last
  successful evaluation counted and wrote (`shows_after`).
-/
namespace OpTape

variable {V : Type}

/-! ## Work -/

namespace Session

variable {α β : Type}

/-- What the work answers, and what the session is afterwards. -/
def Work.on (m : Work V α) (s : Session V) : Except (Refusal V) α × Session V := (m.run.run s).run

@[simp] theorem on_pure (a : α) (s : Session V) : (pure a : Work V α).on s = (.ok a, s) := rfl

@[simp] theorem on_throw (refusal : Refusal V) (s : Session V) :
    (throw refusal : Work V α).on s = (.error refusal, s) := rfl

@[simp] theorem on_bind (m : Work V α) (f : α → Work V β) (s : Session V) :
    (m >>= f).on s = match m.on s with
      | (.ok a, s') => (f a).on s'
      | (.error refusal, s') => (.error refusal, s') := by
  unfold Work.on
  simp only [ExceptT.run_bind, StateT.run_bind]
  rcases StateT.run (ExceptT.run m) s with ⟨a | a, s'⟩ <;> rfl

@[simp] theorem on_modify (f : Session V → Session V) (s : Session V) :
    (modify f : Work V Unit).on s = (.ok (), f s) := rfl

@[simp] theorem on_currentTape (s : Session V) : currentTape.on s = (.ok s.tape, s) := rfl

@[simp] theorem on_setTape (tape : Tape V) (s : Session V) :
    (setTape tape).on s = (.ok (), { s with tape }) := rfl

/-- A check goes on with the session as it is, or it refuses an index that is not a value. -/
theorem on_check_bind {P : Except (Refusal V) α × Session V → Prop} {indices : List Nat}
    {m : Unit → Work V α} {s : Session V}
    (hrefused : ∀ i ∈ indices, s.tape.valueCount ≤ i →
      P (.error (.argument i s.tape.valueCount), s))
    (hchecked : (∀ i ∈ indices, i < s.tape.valueCount) → P ((m ()).on s)) :
    P ((check indices >>= m).on s) := by
  cases hfind : indices.find? (s.tape.valueCount ≤ ·) with
  | some i =>
    have hcheck : (check indices).on s = (.error (.argument i s.tape.valueCount), s) := by
      simp [check, hfind]
    rw [on_bind, hcheck]
    exact hrefused i (List.mem_of_find?_eq_some hfind) (by simpa using List.find?_some hfind)
  | none =>
    have hcheck : (check indices).on s = (.ok (), s) := by
      simp [check, hfind]
    rw [on_bind, hcheck]
    refine hchecked fun i hi => ?_
    simpa using List.find?_eq_none.mp hfind i hi

/-- Work on a comparison goes on with the one that has the name, or there is none. -/
theorem on_comparison_bind {P : Except (Refusal V) α × Session V → Prop} {name : String}
    {m : Comparison → Work V α} {s : Session V}
    (hunknown : Comparison.ofName? name = none → P (.error (.unknownComparison name), s))
    (hknown : ∀ cmp, Comparison.ofName? name = some cmp → P ((m cmp).on s)) :
    P ((comparison name >>= m).on s) := by
  rw [on_bind, comparison]
  cases hname : Comparison.ofName? name with
  | none => exact hunknown hname
  | some cmp => exact hknown cmp hname

theorem on_record {s : Session V} {u : Usage V} (h : s.tape.Admits u) :
    (record u).on s
      = (.ok (.ofRecorded (s.tape.offers u)), { s with tape := s.tape.push u }) := by
  have hrecord : s.tape.record? u = some (s.tape.offers u, s.tape.push u) := by
    rw [Tape.record?, Tape.append?_eq_some_iff.mpr ⟨h, rfl⟩]
    rfl
  simp only [record, on_bind, on_currentTape, hrecord, on_setTape, on_pure]

theorem on_replace {s : Session V} {result : Except (Refusal V) (Tape V)} {tape : Tape V}
    (h : result = .ok tape) : (replace result).on s = (.ok .done, { s with tape }) := by
  subst h
  rfl

variable [Scalar V]

/-- What is left of an evaluation that succeeded. -/
def remember (s : Session V) (e : Evaluation V) (a : Answer V) : Session V :=
  { s with compareFalse := a.compareFalse, output := e.out }

theorem on_run {s : Session V} {traced : Bool} {x : List V} (hx : x.length = s.tape.indCount)
    {a : Answer V} (ha : (s.tape.evaluate .empty traced (s.tape.initial x)).outcome = .ok a) :
    (run traced x).on s = (.ok a.dependents,
      s.remember (s.tape.evaluate .empty traced (s.tape.initial x)) a) := by
  simp only [run, on_bind, on_currentTape, if_pos hx, ha, on_modify, on_pure]
  rfl

theorem on_run_of_length {s : Session V} {traced : Bool} {x : List V}
    (hx : x.length ≠ s.tape.indCount) :
    (run traced x).on s = (.error (.fault (.valueLength s.tape.indCount x.length)), s) := by
  simp only [run, on_bind, on_currentTape, if_neg hx, on_throw]

end Session

namespace Tape

variable [Scalar V] {t : Tape V} {traced : Bool} {x : List V}

/-- What an evaluation at `x` counts and writes, if it succeeds. -/
def shownAt (t : Tape V) (traced : Bool) (x : List V) : Option (Nat × String) :=
  if x.length = t.indCount then
    let e := t.evaluate .empty traced (t.initial x)
    e.outcome.toOption.map fun a => (a.compareFalse, e.out)
  else none

theorem shownAt_eq (hx : x.length = t.indCount) {a : Answer V}
    (ha : (t.evaluate .empty traced (t.initial x)).outcome = .ok a) :
    t.shownAt traced x = some (a.compareFalse, (t.evaluate .empty traced (t.initial x)).out) := by
  simp only [shownAt, if_pos hx, ha]
  rfl

theorem shownAt_eq_none (hx : x.length ≠ t.indCount) : t.shownAt traced x = none := if_neg hx

end Tape

/-! ## Refusals -/

/-- The engine met what it relies on not to happen. -/
def Refusal.IsBreach : Refusal V → Prop
  | .fault f => f = .contract
  | .stageFault f => f.fault = .contract
  | _ => False

theorem Options.ne_contract_of_set {options : Options} {name value : String} {f : Fault V}
    (h : options.set name value = .error f) : f ≠ .contract := by
  unfold set at h
  -- by the name and then by the value
  split at h <;> split at h <;> cases h <;> simp

theorem Tape.ne_contract_of_setOption {t : Tape V} {name value : String} {f : Fault V}
    (h : t.setOption name value = .error f) : f ≠ .contract := by
  obtain hset | ⟨_, -, hmade⟩ := bind_eq_error_iff.mp h
  · exact Options.ne_contract_of_set hset
  · cases hmade

/-! ## What a request can do -/

/-- The request asks for this usage to be recorded. -/
inductive Request.Asks : Request V → Usage V → Prop
  | constant (v : V) : Asks (.constant v) (.constant v)
  | unary {name : String} {op : UnaryOp} {x : Nat} (h : Kind.ofName? name = some (.unary op)) :
      Asks (.unary name x) (.unary op x)
  | binary {name : String} {op : BinaryOp} {left right : Nat}
      (h : Kind.ofName? name = some (.binary op)) :
      Asks (.binary name left right) (.binary op left right)
  | sum (add sub : List Nat) : Asks (.sum add sub) (.sum add sub)
  | compare {name : String} {cmp : Comparison} {left right : Nat}
      (h : Comparison.ofName? name = some cmp) :
      Asks (.compare name left right) (.compare cmp left right)
  | select {name : String} {cmp : Comparison} {left right ifTrue ifFalse : Nat}
      (h : Comparison.ofName? name = some cmp) :
      Asks (.select name left right ifTrue ifFalse) (.select cmp left right ifTrue ifFalse)
  | print (before after : String) (flag value : Nat) :
      Asks (.print before after flag value) (.print before after flag value)

theorem Request.Asks.isSelfContained {q : Request V} {u : Usage V} (h : q.Asks u) :
    u.kind.isSelfContained := by
  cases h <;> rfl

theorem Request.Asks.vector?_eq {q : Request V} {u : Usage V} (h : q.Asks u) :
    u.vector? = none := by
  cases h <;> rfl

theorem Request.Asks.unique {q : Request V} {u v : Usage V} (hu : q.Asks u) (hv : q.Asks v) :
    u = v := by
  cases hu <;> cases hv <;> simp_all

/-- The request asks for a pass that makes `t'` of `t`. -/
inductive Request.Passes [Scalar V] [DecidableEq V] (t t' : Tape V) : Request V → Prop
  | dropDead (h : t.dropDead .empty = .ok t') : Passes t t' .dropDead
  | mergeEqual (h : t.mergeEqual = .ok t') : Passes t t' .mergeEqual
  | foldConstants (h : t.foldConstants .empty = .ok t') : Passes t t' .foldConstants
  | fuseSums (h : t.fuseSums = .ok t') : Passes t t' .fuseSums
  | optimize (h : t.optimize .empty = .ok t') : Passes t t' .optimize

/-- The requests for a pass. -/
def Request.passes : List (Request V) := [dropDead, mergeEqual, foldConstants, fuseSums, optimize]

namespace Session

/-- Why a session in order refuses a request. -/
inductive Refused (s : Session V) : Request V → Refusal V → Prop
  | unary {name : String} {x : Nat} (h : ∀ op, Kind.ofName? name ≠ some (.unary op)) :
      Refused s (.unary name x) (.unknownUnary name)
  | binary {name : String} {left right : Nat} (h : ∀ op, Kind.ofName? name ≠ some (.binary op)) :
      Refused s (.binary name left right) (.unknownBinary name)
  | compare {name : String} {left right : Nat} (h : Comparison.ofName? name = none) :
      Refused s (.compare name left right) (.unknownComparison name)
  | select {name : String} {left right ifTrue ifFalse : Nat}
      (h : Comparison.ofName? name = none) :
      Refused s (.select name left right ifTrue ifFalse) (.unknownComparison name)
  | argument {q : Request V} {u : Usage V} {i : Nat} (hasks : q.Asks u) (hi : i ∈ u.reads)
      (hle : s.tape.valueCount ≤ i) : Refused s q (.argument i s.tape.valueCount)
  | dependent {values : List Nat} {i : Nat} (hi : i ∈ values) (hle : s.tape.valueCount ≤ i) :
      Refused s (.setDependents values) (.argument i s.tape.valueCount)
  | dependentsSet {values : List Nat} (h : s.tape.deps.isSome = true) :
      Refused s (.setDependents values) .dependentsSet
  | option {name value : String} {f : Fault V} (h : s.tape.setOption name value = .error f) :
      Refused s (.setOption name value) (.fault f)
  | evaluate {x : List V} (h : x.length ≠ s.tape.indCount) :
      Refused s (.evaluate x) (.fault (.valueLength s.tape.indCount x.length))
  | trace {x : List V} (h : x.length ≠ s.tape.indCount) :
      Refused s (.trace x) (.fault (.valueLength s.tape.indCount x.length))

theorem Refused.not_isBreach {s : Session V} {q : Request V} {refusal : Refusal V}
    (h : s.Refused q refusal) : ¬ refusal.IsBreach := by
  cases h with
  | option h => exact Tape.ne_contract_of_setOption h
  | _ => simp [Refusal.IsBreach]

/-- What asks for a usage is refused for an operand of it. -/
theorem Refused.exists_of_asks {s : Session V} {q : Request V} {refusal : Refusal V}
    (h : s.Refused q refusal) {u : Usage V} (hasks : q.Asks u) :
    ∃ i ∈ u.reads, s.tape.valueCount ≤ i := by
  cases h with
  | argument hasks' hi hle => exact ⟨_, hasks.unique hasks' ▸ hi, hle⟩
  | unary hname | binary hname | compare hname | select hname => cases hasks; simp_all
  | _ => cases hasks

variable [Scalar V] [DecidableEq V]

/-- What a request can do to a session in order. -/
inductive Performed (s : Session V) :
    Request V → Except (Refusal V) (Reply V) → Session V → Prop
  | refused {q : Request V} {refusal : Refusal V} (h : s.Refused q refusal) :
      Performed s q (.error refusal) s
  | recorded {q : Request V} {u : Usage V} (hasks : q.Asks u) (hadmits : s.tape.Admits u) :
      Performed s q (.ok (.ofRecorded (s.tape.offers u))) { s with tape := s.tape.push u }
  | dependents {values : List Nat} (hnone : s.tape.deps = none)
      (hvalues : ∀ i ∈ values, i < s.tape.valueCount) :
      Performed s (.setDependents values) (.ok .done)
        { s with tape := { s.tape with deps := some values } }
  | option {name value : String} {t' : Tape V} (h : s.tape.setOption name value = .ok t') :
      Performed s (.setOption name value) (.ok .done) { s with tape := t' }
  | evaluated {x : List V} {a : Answer V} (hx : x.length = s.tape.indCount)
      (ha : (s.tape.evaluate .empty false (s.tape.initial x)).outcome = .ok a) :
      Performed s (.evaluate x) (.ok (.dependents a.dependents))
        (s.remember (s.tape.evaluate .empty false (s.tape.initial x)) a)
  | traced {x : List V} {a : Answer V} (hx : x.length = s.tape.indCount)
      (ha : (s.tape.evaluate .empty true (s.tape.initial x)).outcome = .ok a) :
      Performed s (.trace x)
        (.ok (.report a.dependents a.compareFalse
          (s.tape.evaluate .empty true (s.tape.initial x)).out))
        (s.remember (s.tape.evaluate .empty true (s.tape.initial x)) a)
  | passed {q : Request V} {t' : Tape V} (h : q.Passes s.tape t') (ht' : t'.SelfContained) :
      Performed s q (.ok .done) { s with tape := t' }

theorem perform_eq (s : Session V) (q : Request V) : s.perform q = (work q).on s := rfl

/-- The request did to the session what a request can do. -/
abbrev Performs (s : Session V) (q : Request V) (p : Except (Refusal V) (Reply V) × Session V) :
    Prop := s.Performed q p.1 p.2

/-- A usage is recorded once the operands were checked. -/
theorem performs_record {s : Session V} {q : Request V} {u : Usage V} (hasks : q.Asks u)
    (hreads : ∀ i ∈ u.reads, i < s.tape.valueCount) : s.Performs q ((record u).on s) := by
  have hadmits : s.tape.Admits u := ⟨hreads, by simp [hasks.vector?_eq]⟩
  rw [on_record hadmits]
  exact .recorded hasks hadmits

theorem performs_check_record {s : Session V} {q : Request V} {u : Usage V} (hasks : q.Asks u)
    {indices : List Nat} (hreads : u.reads = indices) :
    s.Performs q ((check indices >>= fun _ => record u).on s) :=
  on_check_bind (fun _ hi hle => .refused (.argument hasks (hreads ▸ hi) hle)) fun hlt =>
    performs_record hasks fun i hi => hlt i (hreads ▸ hi)

theorem performs_setDependents (s : Session V) (values : List Nat) :
    s.Performs (.setDependents values) (s.perform (.setDependents values)) := by
  rw [perform_eq, work, setDependents]
  simp only [on_bind, on_currentTape]
  cases hdeps : s.tape.deps with
  | some _ => exact .refused (.dependentsSet (by rw [hdeps]; rfl))
  | none =>
    refine on_check_bind (fun _ hi hle => .refused (.dependent hi hle)) fun hvalues => ?_
    simp only [on_bind, on_currentTape, Tape.setDependents?_eq_some_iff.mpr ⟨⟨hdeps, hvalues⟩, rfl⟩]
    exact .dependents hdeps hvalues

/-- A pass that succeeds replaces the tape. -/
theorem performs_pass {s : Session V} {q : Request V} {result : Except (Refusal V) (Tape V)}
    {t' : Tape V} (hq : q.Passes s.tape t') (ht' : t'.SelfContained) (h : result = .ok t') :
    s.Performs q ((replace result).on s) := by
  rw [on_replace h]
  exact .passed hq ht'

/-- Requests do to a session in order what `Performed` lists. -/
theorem performs {s : Session V} (hs : s.tape.SelfContained) (q : Request V) :
    s.Performs q (s.perform q) := by
  have hanswer (traced : Bool) {x : List V} (hx : x.length = s.tape.indCount) :=
    hs.exists_answer .empty traced (Tape.size_initial s.tape hx)
  rw [perform_eq, work.eq_def]
  cases q with
  | constant v =>
    exact performs_record (.constant v) (by simp [Usage.reads, Usage.args, Usage.initials])
  | unary name x =>
    dsimp only
    split
    · exact performs_check_record (.unary ‹_›) rfl
    · exact .refused (.unary ‹_›)
  | binary name left right =>
    dsimp only
    split
    · exact performs_check_record (.binary ‹_›) rfl
    · exact .refused (.binary ‹_›)
  | sum add sub =>
    have hreads {i : Nat} : i ∈ (Usage.sum add sub : Usage V).reads ↔ i ∈ add ∨ i ∈ sub := by
      simp [Usage.reads, Usage.args, Usage.initials]
    refine on_check_bind
      (fun _ hi => .refused ∘ .argument (.sum add sub) (hreads.mpr (.inl hi))) fun hadd => ?_
    refine on_check_bind
      (fun _ hi => .refused ∘ .argument (.sum add sub) (hreads.mpr (.inr hi))) fun hsub => ?_
    exact performs_record (.sum add sub) fun i hi => (hreads.mp hi).elim (hadd i) (hsub i)
  | compare name left right =>
    exact on_comparison_bind (fun h => .refused (.compare h)) fun _ h =>
      performs_check_record (.compare h) rfl
  | select name left right ifTrue ifFalse =>
    exact on_comparison_bind (fun h => .refused (.select h)) fun _ h =>
      performs_check_record (.select h) rfl
  | print before after flag value =>
    exact performs_check_record (.print before after flag value) rfl
  | setDependents values => exact performs_setDependents s values
  | setOption name value =>
    simp only [on_bind, on_currentTape]
    cases hset : s.tape.setOption name value with
    | ok t' => exact .option hset
    | error f => exact .refused (.option hset)
  | evaluate x =>
    by_cases hx : x.length = s.tape.indCount
    · obtain ⟨a, ha⟩ := hanswer false hx
      rw [on_bind, on_run hx ha]
      exact .evaluated hx ha
    · rw [on_bind, on_run_of_length hx]
      exact .refused (.evaluate hx)
  | trace x =>
    by_cases hx : x.length = s.tape.indCount
    · obtain ⟨a, ha⟩ := hanswer true hx
      rw [on_bind, on_run hx ha]
      exact .traced hx ha
    · rw [on_bind, on_run_of_length hx]
      exact .refused (.trace hx)
  | dropDead =>
    obtain ⟨t', h, ht'⟩ := hs.exists_dropDead .empty
    exact performs_pass (.dropDead h) ht' (by rw [h]; rfl)
  | mergeEqual =>
    obtain ⟨t', h, ht'⟩ := hs.exists_mergeEqual
    exact performs_pass (.mergeEqual h) ht' (by rw [h]; rfl)
  | foldConstants =>
    obtain ⟨t', h, ht'⟩ := hs.exists_foldConstants .empty
    exact performs_pass (.foldConstants h) ht' (by rw [h]; rfl)
  | fuseSums =>
    obtain ⟨t', h, ht'⟩ := hs.exists_fuseSums
    exact performs_pass (.fuseSums h) ht' (by rw [h]; rfl)
  | optimize =>
    obtain ⟨t', h, ht'⟩ := hs.exists_optimize .empty
    exact performs_pass (.optimize h) ht' (by rw [h]; rfl)

/-! ## What holds throughout -/

variable {s s' : Session V} {q : Request V} {answer : Except (Refusal V) (Reply V)}

theorem Performed.selfContained (h : s.Performed q answer s') (hs : s.tape.SelfContained) :
    s'.tape.SelfContained := by
  cases h with
  | refused | evaluated | traced => exact hs
  | recorded hasks hadmits => exact hs.push hadmits hasks.isSelfContained
  | dependents hnone hvalues => exact ⟨⟨hs.wellFormed.body, hvalues⟩, hs.standsAlone⟩
  | option h => exact hs.setOption h
  | passed _ ht' => exact ht'

/-- What the evaluation that a request asks for counts and writes, if it succeeds. -/
def shown (s : Session V) : Request V → Option (Nat × String)
  | .evaluate x => s.tape.shownAt false x
  | .trace x => s.tape.shownAt true x
  | _ => none

theorem Performed.shows (h : s.Performed q answer s') :
    (s'.compareFalse, s'.output) = (s.shown q).getD (s.compareFalse, s.output) := by
  cases h with
  | refused h =>
    cases h with
    | argument hasks => cases hasks <;> rfl
    | evaluate hx | trace hx => rw [shown, Tape.shownAt_eq_none hx]; rfl
    | _ => rfl
  | recorded hasks => cases hasks <;> rfl
  | evaluated hx ha | traced hx ha => rw [shown, Tape.shownAt_eq hx ha]; rfl
  | passed h => cases h <;> rfl
  | _ => rfl

/-- The session after a history of requests. -/
def after (s : Session V) (history : List (Request V)) : Session V :=
  history.foldl (fun s q => (s.perform q).2) s

/-- What the successful evaluations of a history show, in order. -/
def showings (s : Session V) : List (Request V) → List (Nat × String)
  | [] => []
  | q :: rest => (s.shown q).toList ++ (s.perform q).2.showings rest

theorem selfContained_after (hs : s.tape.SelfContained) (history : List (Request V)) :
    (s.after history).tape.SelfContained := by
  induction history generalizing s with
  | nil => exact hs
  | cons q rest ih => exact ih ((performs hs q).selfContained hs)

theorem shows_after (hs : s.tape.SelfContained) (history : List (Request V)) :
    ((s.after history).compareFalse, (s.after history).output)
      = (s.showings history).getLast?.getD (s.compareFalse, s.output) := by
  induction history generalizing s with
  | nil => rfl
  | cons q rest ih =>
    have hstep := performs hs q
    calc ((s.after (q :: rest)).compareFalse, (s.after (q :: rest)).output)
        = ((s.perform q).2.showings rest).getLast?.getD
            ((s.perform q).2.compareFalse, (s.perform q).2.output) := ih (hstep.selfContained hs)
      _ = ((s.perform q).2.showings rest).getLast?.getD
            ((s.shown q).getD (s.compareFalse, s.output)) := by rw [hstep.shows]
      _ = (s.showings (q :: rest)).getLast?.getD (s.compareFalse, s.output) := by
        cases hshown : s.shown q <;> simp [showings, hshown, List.getLast?_cons]

/-! ## Answers -/

theorem Performed.unchanged {refusal : Refusal V} (h : s.Performed q (.error refusal) s') :
    ¬ refusal.IsBreach ∧ s' = s := by
  cases h with
  | refused h => exact ⟨h.not_isBreach, rfl⟩

theorem Performed.done_of_mem_passes (h : s.Performed q answer s') (hq : q ∈ Request.passes) :
    answer = .ok .done := by
  cases h with
  | refused h =>
    cases h with
    | argument hasks => cases hasks <;> simp [Request.passes] at hq
    | _ => simp [Request.passes] at hq
  | recorded hasks => cases hasks <;> simp [Request.passes] at hq
  | evaluated | traced => simp [Request.passes] at hq
  | _ => rfl

/-- A usage is recorded exactly if its operands exist. -/
theorem Performed.isOk_iff_of_asks (h : s.Performed q answer s') {u : Usage V}
    (hasks : q.Asks u) : answer.isOk ↔ ∀ i ∈ u.reads, i < s.tape.valueCount := by
  cases h with
  | refused h =>
    obtain ⟨i, hi, hle⟩ := h.exists_of_asks hasks
    simpa [Except.isOk, Except.toBool] using ⟨i, hi, hle⟩
  | recorded hasks' hadmits =>
    obtain rfl := hasks.unique hasks'
    simpa [Except.isOk, Except.toBool] using hadmits.1
  | passed h => cases h <;> cases hasks
  | _ => cases hasks

/-- An evaluation succeeds exactly on the right number of values, and then shows something. -/
theorem Performed.isOk_iff (h : s.Performed q answer s') {x : List V}
    (hq : q = .evaluate x ∨ q = .trace x) :
    (answer.isOk ↔ x.length = s.tape.indCount) ∧ (s.shown q).isSome = answer.isOk := by
  cases h with
  | refused h =>
    cases h with
    | argument hasks => cases hasks <;> simp at hq
    | evaluate hx | trace hx =>
      rw [shown, Tape.shownAt_eq_none hx]
      simp_all [Except.isOk, Except.toBool]
    | _ => simp at hq
  | recorded hasks => cases hasks <;> simp at hq
  | evaluated hx ha | traced hx ha =>
    rw [shown, Tape.shownAt_eq hx ha]
    simp_all [Except.isOk, Except.toBool]
  | passed h => cases h <;> simp at hq
  | _ => simp at hq

/-- Whatever was asked before, a request leaves the tape in order, and one that is refused is
refused before anything changed and before the engine met what it relies on. Usages are refused
only for an operand that does not exist, passes never, and evaluations only for the number of
values. The count and the text are those of the last evaluation that succeeded. -/
theorem perform_safe (n : Nat) (history : List (Request V)) (q : Request V) :
    let s := (new n : Session V).after history
    (s.perform q).2.tape.WellFormed ∧
      (∀ refusal, (s.perform q).1 = .error refusal →
        ¬ refusal.IsBreach ∧ (s.perform q).2 = s) ∧
      (∀ u, q.Asks u → ((s.perform q).1.isOk ↔ ∀ i ∈ u.reads, i < s.tape.valueCount)) ∧
      (q ∈ Request.passes → (s.perform q).1 = .ok .done) ∧
      (∀ x, q = .evaluate x ∨ q = .trace x →
        ((s.perform q).1.isOk ↔ x.length = s.tape.indCount) ∧
          (s.shown q).isSome = (s.perform q).1.isOk) ∧
      (s.compareFalse, s.output) = ((new n).showings history).getLast?.getD (0, "") := by
  intro s
  have hnew : (new n : Session V).tape.SelfContained := ⟨.new n {}, Tape.standsAlone_new n {}⟩
  have hs : s.tape.SelfContained := selfContained_after hnew history
  have hstep := performs hs q
  refine ⟨(hstep.selfContained hs).wellFormed, fun refusal hrefusal => ?_,
    fun _ => hstep.isOk_iff_of_asks, hstep.done_of_mem_passes, fun _ => hstep.isOk_iff,
    shows_after hnew history⟩
  have hrefused : s.Performed q (.error refusal) (s.perform q).2 := hrefusal ▸ hstep
  exact hrefused.unchanged

end Session

end OpTape
