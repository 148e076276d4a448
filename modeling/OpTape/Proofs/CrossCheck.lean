import OpTape.Proofs.DeadCode
/-
  The cross-check of dependence answers. A function may answer anything when several of its
  results are needed, as long as its answers for single results are honest: the check compares
  the two where the sweep uses the first, so what passes it is supported after all
  (`Registry.HonestSingly.supports`), and dropping dead code keeps what is observed. The check
  only ever stops the sweep, at a usage that it tells of (`Tape.Omits`), and decides nothing
  else: without it the same tape comes out.
-/
namespace OpTape

variable {V : Type}

/-! ## Honest answers for single results -/

/-- The result that is asked for alone, and success, depend only on the inputs that are marked
for it. -/
def Foreign.HonestSingly (f : Foreign V) : Prop :=
  ∀ callId resultCount j inputCount reads, j < resultCount →
    f.dependence callId (onlyResult resultCount j) inputCount = .ok reads →
    ∀ x y : List V, AgreeOn reads.toList x y →
      SameOn (onlyResult resultCount j) (f.apply callId x resultCount)
        (f.apply callId y resultCount)

/-- Every registered function is honest when it is asked for one result. -/
def Registry.HonestSingly (r : Registry V) : Prop :=
  ∀ family id f, r.get family id = .ok f → f.HonestSingly

theorem getElem?_onlyResult {n j k : Nat} :
    (onlyResult n j)[k]? = some true ↔ k < n ∧ k = j := by
  simp [onlyResult, List.getElem?_eq_some_iff]

/-- Lists agree on fewer marks as well. -/
theorem AgreeOn.mono {marks fewer : List Bool} {x y : List V} (h : AgreeOn marks x y)
    (hlength : fewer.length = marks.length)
    (hmarks : ∀ k : Nat, fewer[k]? = some true → marks[k]? = some true) : AgreeOn fewer x y := by
  induction h generalizing fewer with
  | nil =>
    obtain rfl := List.length_eq_zero_iff.mp hlength
    exact .nil
  | @cons mark marks a b x y hab _ ih =>
    cases fewer with
    | nil => simp at hlength
    | cons first fewer =>
      refine .cons (fun hfirst => hab ?_) (ih (by simpa using hlength) fun k hk => ?_)
      · simpa using hmarks 0 (by simp [hfirst])
      · simpa using hmarks (k + 1) (by simpa using hk)

/-- Results that are the same one by one are the same together. -/
theorem SameOn.of_each {ε : Type} {n : Nat} {flags : List Bool} {c d : Except ε (Vector V n)}
    (hany : flags.any (·)) (hlength : flags.length = n)
    (h : ∀ j < n, flags[j]? = some true → SameOn (onlyResult n j) c d) : SameOn flags c d := by
  obtain ⟨j, hj⟩ : ∃ j : Nat, flags[j]? = some true := by
    obtain ⟨flag, hmem, rfl⟩ := List.any_eq_true.mp hany
    exact List.mem_iff_getElem?.mp hmem
  have hlt {j : Nat} (hj : flags[j]? = some true) : j < n :=
    hlength ▸ (List.getElem?_eq_some_iff.mp hj).1
  -- any one of the results tells whether both calls succeed
  have hone := h j (hlt hj) hj
  cases c with
  | error e =>
    cases d with
    | error e' => trivial
    | ok b => exact hone.elim
  | ok a =>
    cases d with
    | error e' => exact hone.elim
    | ok b => exact fun k hk => h k (hlt hk) hk k (getElem?_onlyResult.mpr ⟨hlt hk, rfl⟩)

theorem Registry.entry?_of_get {r : Registry V} {family : Family} {id : Nat} {f : Foreign V}
    (h : r.get family id = .ok f) : r.entry? family id = some (.live f) := by
  unfold get at h
  split at h
  · rename_i g hentry
    obtain rfl := Except.ok.inj h
    exact hentry
  · cases h
  · cases h

theorem Registry.HonestSingly.sameOn {r : Registry V} (hr : r.HonestSingly) {family : Family}
    {id callId n j inputCount : Nat} {reads : Vector Bool inputCount} (hj : j < n)
    (hreads : r.dependence family id callId (onlyResult n j) inputCount = .ok reads)
    {x y : List V} (hagree : AgreeOn reads.toList x y) :
    SameOn (onlyResult n j) (r.apply family id callId x n) (r.apply family id callId y n) := by
  obtain ⟨f, hget, hf⟩ := dependence_eq_ok hreads
  refine sameOn_apply fun {f'} hget' => ?_
  obtain rfl : f = f' := Except.ok.inj (hget.symm.trans hget')
  exact hr _ _ f hget callId n j inputCount reads hj hf x y hagree

namespace Live

variable {r : Registry V} {options : Options} {family : Family}
  {id callId inputCount : Nat} {needed reads : List Bool}

/-! ## What the check finds -/

/-- One list flags a place that the other leaves out. -/
theorem any_zip_iff {single all : List Bool} :
    ((single.zip all).any fun (one, all) => one && !all) = true ↔
      ∃ k : Nat, single[k]? = some true ∧ all[k]? = some false := by
  constructor
  · intro h
    obtain ⟨⟨one, both⟩, hmem, hpair⟩ := List.any_eq_true.mp h
    obtain ⟨rfl, rfl⟩ : one = true ∧ both = false := by simpa using hpair
    obtain ⟨k, hk⟩ := List.mem_iff_getElem?.mp hmem
    exact ⟨k, List.getElem?_zip_eq_some.mp hk⟩
  · rintro ⟨k, hone, hall⟩
    exact List.any_eq_true.mpr ⟨(true, false),
      List.mem_iff_getElem?.mpr ⟨k, List.getElem?_zip_eq_some.mpr ⟨hone, hall⟩⟩, rfl⟩

/-- What a single answer marks is marked in common, for every result that passes the check. -/
theorem covered_of_unsupported {js : List Nat} (hlength : reads.length = inputCount)
    (h : unsupported r family id callId needed reads js = .ok none) :
    ∀ j ∈ js, ∃ single : Vector Bool inputCount,
      r.dependence family id callId (onlyResult needed.length j) inputCount = .ok single ∧
        ∀ k : Nat, single.toList[k]? = some true → reads[k]? = some true := by
  subst hlength
  induction js with
  | nil => simp
  | cons j js ih =>
    obtain ⟨single, hsingle, h⟩ := bind_eq_ok_iff.mp h
    split at h
    · cases h
    · rename_i hcovered
      intro j' hj'
      rcases List.mem_cons.mp hj' with rfl | hj'
      · refine ⟨single, hsingle, fun k hk => ?_⟩
        have hlt : k < reads.length := by
          simpa using (List.getElem?_eq_some_iff.mp hk).1
        cases hread : reads[k] with
        | true => rw [List.getElem?_eq_getElem hlt, hread]
        | false =>
          refine absurd (any_zip_iff.mpr ⟨k, hk, ?_⟩) hcovered
          rw [List.getElem?_eq_getElem hlt, hread]
      · exact ih h j' hj'

/-- The check stops at a result whose single answer marks what is left out in common. -/
theorem omitted_of_unsupported {js : List Nat} {j : Nat} (hlength : reads.length = inputCount)
    (h : unsupported r family id callId needed reads js = .ok (some j)) :
    j ∈ js ∧ ∃ single : Vector Bool inputCount,
      r.dependence family id callId (onlyResult needed.length j) inputCount = .ok single ∧
        ∃ k : Nat, single.toList[k]? = some true ∧ reads[k]? = some false := by
  subst hlength
  induction js with
  | nil => cases h
  | cons j' js ih =>
    obtain ⟨single, hsingle, h⟩ := bind_eq_ok_iff.mp h
    split at h
    · rename_i homitted
      obtain rfl : j' = j := Option.some.inj (Except.ok.inj h)
      exact ⟨List.mem_cons_self, single, hsingle, any_zip_iff.mp homitted⟩
    · obtain ⟨hmem, hfound⟩ := ih h
      exact ⟨List.mem_cons_of_mem _ hmem, hfound⟩

theorem mem_needed {j : Nat} :
    j ∈ (List.range needed.length).filter (needed.getD · false) ↔ needed[j]? = some true := by
  rw [List.mem_filter, List.mem_range, List.getD_eq_getElem?_getD]
  constructor
  · rintro ⟨hlt, hflag⟩
    rw [List.getElem?_eq_getElem hlt] at hflag ⊢
    exact congrArg some hflag
  · intro hj
    exact ⟨(List.getElem?_eq_some_iff.mp hj).1, by rw [hj]; rfl⟩

end Live

/-- Where single answers are honest, the answers that pass the check are supported. -/
theorem Registry.HonestSingly.supports {r : Registry V} (hr : r.HonestSingly) {options : Options}
    (hcheck : options.checkDependence = true) : r.Supports options := by
  intro family id callId n inputCount needed reads hlength hneeded hreads x y hagree
  obtain ⟨answer, hanswer, h⟩ := bind_eq_ok_iff.mp hreads
  rw [if_pos hcheck] at h
  obtain ⟨found, hfound, h⟩ := bind_eq_ok_iff.mp h
  cases found with
  | some result => cases h
  | none =>
    obtain rfl : answer.toList = reads := Except.ok.inj h
    refine .of_each hneeded hlength fun j hj hflag => ?_
    obtain ⟨single, hsingle, hcovered⟩ :=
      Live.covered_of_unsupported answer.length_toList hfound j (Live.mem_needed.mpr hflag)
    rw [hlength] at hsingle
    exact hr.sameOn hj hsingle (hagree.mono (by simp) hcovered)

/-- The answer of a function for the result alone marks an input that its answer for all needed
results leaves out. -/
def Foreign.Omits (f : Foreign V) (callId : Nat) (needed : List Bool) (inputCount result : Nat) :
    Prop :=
  needed[result]? = some true ∧ ∃ all single : Vector Bool inputCount,
    f.dependence callId needed inputCount = .ok all ∧
      f.dependence callId (onlyResult needed.length result) inputCount = .ok single ∧
      ∃ k : Nat, single[k]? = some true ∧ all[k]? = some false

namespace Live

variable {r : Registry V} {options : Options} {zeroIndex : Nat} {family family' : Family}
  {id id' callId inputCount result : Nat} {needed : List Bool} {name : String}

/-! ## Where the sweep stops -/

theorem dependence_ne_omitted :
    r.dependence family id callId needed inputCount
      ≠ .error (.dependenceOmitted family' id' name result) := by
  intro h
  rcases bind_eq_error_iff.mp h with hget | ⟨f, -, hf⟩
  · unfold Registry.get at hget
    split at hget <;> cases hget
  · obtain ⟨reason, -, heq⟩ := mapError_eq_error_iff.mp hf
    cases heq

theorem unsupported_ne_omitted {reads : List Bool} {js : List Nat} :
    unsupported r family id callId needed reads js
      ≠ .error (.dependenceOmitted family' id' name result) := by
  induction js with
  | nil => exact fun h => by cases h
  | cons j js ih =>
    intro h
    rcases bind_eq_error_iff.mp h with h | ⟨single, -, h⟩
    · exact dependence_ne_omitted h
    · split at h
      · cases h
      · exact ih h

theorem omits_of_inputsRead
    (h : inputsRead r options family id callId needed inputCount
      = .error (.dependenceOmitted family' id' name result)) :
    family = family' ∧ id = id' ∧
      ∃ f, r.get family id = .ok f ∧ f.name = name ∧ f.Omits callId needed inputCount result := by
  rcases bind_eq_error_iff.mp h with h | ⟨all, hall, h⟩
  · exact absurd h dependence_ne_omitted
  split at h
  · rcases bind_eq_error_iff.mp h with h | ⟨found, hfound, h⟩
    · exact absurd h unsupported_ne_omitted
    cases found with
    | none => cases h
    | some j =>
      obtain ⟨rfl, rfl, hname, rfl⟩ : family = family' ∧ id = id' ∧
          ((r.entry? family id).map Entry.name).getD "" = name ∧ j = result := by
        simpa [throw, throwThe, MonadExceptOf.throw] using h
      obtain ⟨hmem, single, hsingle, k, hmarked, hleft⟩ :=
        omitted_of_unsupported all.length_toList hfound
      obtain ⟨f, hget, hf⟩ := Registry.dependence_eq_ok hall
      refine ⟨rfl, rfl, f, hget, ?_, mem_needed.mp hmem, all, single, hf, ?_, k, ?_, ?_⟩
      · rw [← hname, Registry.entry?_of_get hget]
        rfl
      · obtain ⟨f', hget', hf'⟩ := Registry.dependence_eq_ok hsingle
        obtain rfl : f = f' := Except.ok.inj (hget.symm.trans hget')
        exact hf'
      · simpa using hmarked
      · simpa using hleft
  · cases h

/-- Only a query to a registered function stops the visit of a usage. -/
theorem inputsRead_of_visit {p : Place} {live : Live} {u : Usage V} {fault : Fault V}
    (h : live.visit r options zeroIndex p u = .error fault) :
    ∃ family id callId n inputs, u = .foreign family id callId n inputs ∧
      inputsRead r options family id callId (live.pattern p.first n) inputs.length
        = .error fault := by
  cases u with
  | foreign family id callId n inputs =>
    refine ⟨family, id, callId, n, inputs, rfl, ?_⟩
    simp only [visit] at h
    split at h
    · rcases bind_eq_error_iff.mp h with h | ⟨reads, -, h⟩
      · exact h
      · cases h
    · cases h
  | load w x =>
    simp only [visit] at h
    split at h <;> cases h
  | _ => cases h

/-- A sweep that stops has come from behind to a usage whose visit fails. -/
theorem visit_of_sweep {behind : Live} {p : Place} {us : List (Usage V)} {fault : Fault V}
    (h : sweep r options zeroIndex behind p us = .error fault) :
    ∃ before u rest live actions, us = before ++ u :: rest ∧
      sweep r options zeroIndex behind ((before.foldl Place.past p).past u) rest
        = .ok (live, actions) ∧
      live.visit r options zeroIndex (before.foldl Place.past p) u = .error fault := by
  induction us generalizing p with
  | nil => cases h
  | cons u us ih =>
    rcases bind_eq_error_iff.mp h with h | ⟨⟨live, actions⟩, hrest, h⟩
    · obtain ⟨before, v, rest, live, actions, rfl, hrest, hvisit⟩ := ih h
      exact ⟨u :: before, v, rest, live, actions, rfl, hrest, hvisit⟩
    · rcases bind_eq_error_iff.mp h with h | ⟨_, -, h⟩
      · exact ⟨[], u, us, live, actions, rfl, hrest, h⟩
      · cases h

end Live

namespace Tape

variable {r : Registry V} {t t' : Tape V}

/-- The place behind the first usages of a tape. -/
def placeBehind (t : Tape V) (before : List (Usage V)) : Place :=
  before.foldl Place.past t.firstPlace

/-- On the tape stands a usage of the registered function of this name, with a result that is
needed there and whose answer alone marks an input that the answer for all needed results leaves
out. What is needed is found by the sweep over the usages behind. -/
def Omits (t : Tape V) (r : Registry V) (family : Family) (id : Nat) (name : String)
    (result : Nat) : Prop :=
  ∃ before callId n inputs behind live actions f,
    t.body.toList = before ++ .foreign family id callId n inputs :: behind ∧
    Live.sweep r t.options t.zeroIndex t.liveBehind
      (t.placeBehind (before ++ [.foreign family id callId n inputs])) behind
      = .ok (live, actions) ∧
    r.get family id = .ok f ∧ f.name = name ∧
    f.Omits callId (live.pattern (t.placeBehind before).first n) inputs.length result

theorem omits_of_dropDead {family : Family} {id result : Nat} {name : String}
    (h : t.dropDead r = .error (.dependenceOmitted family id name result)) :
    t.Omits r family id name result := by
  rcases bind_eq_error_iff.mp h with hsweep | ⟨_, -, hrebuild⟩
  · obtain ⟨before, u, behind, live, actions, hbody, hrest, hvisit⟩ := Live.visit_of_sweep hsweep
    obtain ⟨family', id', callId, n, inputs, rfl, hreads⟩ := Live.inputsRead_of_visit hvisit
    obtain ⟨rfl, rfl, f, hget, hname, homits⟩ := Live.omits_of_inputsRead hreads
    refine ⟨before, callId, n, inputs, behind, live, actions, f, hbody, ?_, hget, hname, homits⟩
    rw [placeBehind, List.foldl_append]
    exact hrest
  · unfold rebuild at hrebuild
    dsimp only at hrebuild
    split at hrebuild <;> cases hrebuild

/-! ## Other options -/

/-- The tape with other options. -/
def withOptions (t : Tape V) (options : Options) : Tape V := { t with options }

end Tape

namespace Rebuild

variable {b b' : Rebuild V} {u : Usage V} {action : Action V}

def withOptions (b : Rebuild V) (options : Options) : Rebuild V :=
  { b with tape := b.tape.withOptions options }

theorem withOptions_enterVector (b : Rebuild V) (options : Options) (u : Usage V)
    (which : Option Nat) :
    (b.enterVector u which).withOptions options = (b.withOptions options).enterVector u which := by
  unfold enterVector
  split <;> rfl

theorem withOptions_withConstants (b : Rebuild V) (options : Options) (values : List (Option V)) :
    (b.withConstants values).withOptions options
      = (b.withOptions options).withConstants values := by
  induction values generalizing b with
  | nil => rfl
  | cons v values ih =>
    cases v with
    | none => exact ih b
    | some v => exact ih (b.pushed (.constant v))

theorem withOptions_replaced (b : Rebuild V) (options : Options) (u new : Usage V) :
    (b.replaced u new).withOptions options = (b.withOptions options).replaced u new := by
  unfold replaced enterVector
  split <;> rfl

/-- No action looks at the options. -/
theorem Step.withOptions (h : Step b u action b') (options : Options) :
    Step (b.withOptions options) u action (b'.withOptions options) := by
  cases h with
  | drop =>
    show Step _ u .drop (((b.enterVector u none).withOptions options).enter _)
    rw [withOptions_enterVector]
    exact .drop
  | copy hnew hadmits =>
    rw [withOptions_replaced]
    exact .copy hnew hadmits
  | rebind hnew hadmits =>
    rw [withOptions_replaced]
    refine .rebind ?_ hadmits
    cases u <;> exact hnew
  | @constants values hlength =>
    show Step _ u _ (((b.withConstants _).withOptions options).enter _)
    rw [withOptions_withConstants]
    exact .constants hlength
  | foldResults hlength hnew hadmits =>
    show Step _ u _ ((((b.pushed _).withConstants _).withOptions options).enter _)
    rw [withOptions_withConstants]
    exact .foldResults hlength hnew hadmits
  | reuse hj => exact .reuse (s := b.withOptions options) hj
  | sum hadd hsub hadmits => exact .sum (s := b.withOptions options) hadd hsub hadmits

theorem run?_withOptions {plan : List (Usage V × Action V)} (h : b.run? plan = some b')
    (options : Options) : (b.withOptions options).run? plan = some (b'.withOptions options) := by
  induction plan generalizing b with
  | nil =>
    obtain rfl := Option.some.inj h
    rfl
  | cons step plan ih =>
    obtain ⟨b₁, hstep, hrun⟩ := run?_cons_eq_some_iff.mp h
    exact run?_cons_eq_some_iff.mpr ⟨_, hstep.withOptions options, ih hrun⟩

end Rebuild

namespace Live

variable {r : Registry V} {options : Options} {zeroIndex : Nat} {p : Place}

/-- An answer that passes the check is the answer without the check. -/
theorem inputsRead_unchecked {family : Family} {id callId inputCount : Nat}
    {needed reads : List Bool}
    (h : inputsRead r options family id callId needed inputCount = .ok reads) :
    inputsRead r { options with checkDependence := false } family id callId needed inputCount
      = .ok reads := by
  obtain ⟨answer, hanswer, rfl⟩ := inputsRead_eq_ok h
  rw [inputsRead, hanswer]
  rfl

theorem visit_unchecked {live before : Live} {u : Usage V} {action : Action V}
    (h : live.visit r options zeroIndex p u = .ok (before, action)) :
    live.visit r { options with checkDependence := false } zeroIndex p u
      = .ok (before, action) := by
  cases u with
  | foreign family id callId n inputs =>
    simp only [visit] at h ⊢
    split at h
    · rename_i hneeded
      obtain ⟨reads, hreads, h⟩ := bind_eq_ok_iff.mp h
      rw [if_pos hneeded, inputsRead_unchecked hreads]
      exact h
    · rename_i hneeded
      rw [if_neg hneeded]
      exact h
  | _ => exact h

theorem sweep_unchecked {behind before : Live} {us : List (Usage V)} {actions : List (Action V)}
    (h : sweep r options zeroIndex behind p us = .ok (before, actions)) :
    sweep r { options with checkDependence := false } zeroIndex behind p us
      = .ok (before, actions) := by
  induction us generalizing p before actions with
  | nil => exact h
  | cons u us ih =>
    obtain ⟨⟨live, actions'⟩, hrest, h⟩ := bind_eq_ok_iff.mp h
    obtain ⟨⟨before', action⟩, hvisit, h⟩ := bind_eq_ok_iff.mp h
    rw [sweep, ih hrest]
    show (visit _ _ _ _ _ _ >>= _) = _
    rw [visit_unchecked hvisit]
    exact h

end Live

namespace Tape

variable {r : Registry V} {t t' : Tape V}

/-- Rebuilding a tape with other options changes nothing but the options. -/
theorem rebuild_withOptions {actions : List (Action V)} (h : t.rebuild actions = .ok t')
    (options : Options) :
    (t.withOptions options).rebuild actions = .ok (t'.withOptions options) := by
  obtain ⟨hlength, b, hrun, hfinish⟩ := rebuild_eq_ok_iff.mp h
  obtain ⟨ds, hds, hset⟩ := Rebuild.finish?_eq_some_iff.mp hfinish
  obtain ⟨hvalues, rfl⟩ := setDependents?_eq_some_iff.mp hset
  refine rebuild_eq_ok_iff.mpr ⟨hlength, _, Rebuild.run?_withOptions hrun options, ?_⟩
  exact Rebuild.finish?_eq_some_iff.mpr
    ⟨ds, hds, setDependents?_eq_some_iff.mpr ⟨hvalues, rfl⟩⟩

/-- The tape without the check. -/
def unchecked (t : Tape V) : Tape V := t.withOptions { t.options with checkDependence := false }

theorem setOption_unchecked (t : Tape V) :
    t.setOption "check_rev_depend" "false" = .ok t.unchecked := rfl

theorem dropDead_unchecked (h : t.dropDead r = .ok t') :
    t.unchecked.dropDead r = .ok t'.unchecked := by
  obtain ⟨live, actions, hsweep, hrebuild⟩ := dropDead_eq_ok h
  have hoptions := (rebuild_inherits hrebuild).2
  refine bind_eq_ok_iff.mpr ⟨(live, actions), Live.sweep_unchecked hsweep, ?_⟩
  have hunchecked : t'.unchecked = t'.withOptions { t.options with checkDependence := false } := by
    rw [unchecked, hoptions]
  rw [hunchecked]
  exact rebuild_withOptions hrebuild _

variable [Scalar V]

/-- The check makes up for answers that are wrong when several results are needed. If single
answers are honest, dropping dead code with the check keeps what is observed. A fault of the check
tells of a needed result whose single answer marks an input that the answer in use leaves out. And
the check only ever stops the pass: what comes out is what comes out without it. -/
theorem dropDead_checked (t : Tape V) (r : Registry V) (hcheck : t.options.checkDependence = true) :
    (Scalar.lt (Scalar.zero : V) Scalar.zero = false → r.HonestSingly →
      ∀ t', t.dropDead r = .ok t' → ∀ x, t.KeptBy t' r x) ∧
    (∀ family id name result,
      t.dropDead r = .error (.dependenceOmitted family id name result) →
        t.Omits r family id name result) ∧
    ∀ t', t.dropDead r = .ok t' → t.unchecked.dropDead r = .ok t'.unchecked := by
  refine ⟨fun hzero hr t' h x => ?_, fun family id name result h => omits_of_dropDead h,
    fun t' h => dropDead_unchecked h⟩
  exact keptBy_of_dropDead hzero (hr.supports hcheck) h x

end Tape

/-! ## A function that forgets -/

/-- Hands on its inputs. Of all needed results, it reports what the first reads. -/
def Foreign.forgetful : Foreign V where
  name := "forgetful"
  apply _ inputs n :=
    if h : n ≤ inputs.length then .ok (.ofFn fun j => inputs[j]) else .error "too few inputs"
  dependence _ needed _ := .ok (.ofFn fun k => k.val == needed.findIdx (·))

theorem findIdx_onlyResult {n j : Nat} (hj : j < n) : (onlyResult n j).findIdx (·) = j := by
  have hlt : j < (onlyResult n j).length := by simpa [onlyResult] using hj
  rw [List.findIdx_eq hlt]
  refine ⟨by simp [onlyResult], fun k hk => ?_⟩
  simp [onlyResult]
  omega

theorem AgreeOn.length_eqs {marks : List Bool} {x y : List V} (h : AgreeOn marks x y) :
    marks.length = x.length ∧ x.length = y.length := by
  induction h with
  | nil => exact ⟨rfl, rfl⟩
  | cons _ _ ih => exact ⟨congrArg (· + 1) ih.1, congrArg (· + 1) ih.2⟩

theorem AgreeOn.getElem? {marks : List Bool} {x y : List V} (h : AgreeOn marks x y) {k : Nat}
    (hk : marks[k]? = some true) : x[k]? = y[k]? := by
  induction h generalizing k with
  | nil => simp at hk
  | cons hab _ ih =>
    cases k with
    | zero => simpa using hab (by simpa using hk)
    | succ k => simpa using ih (by simpa using hk)

theorem Foreign.forgetful_honestSingly : (forgetful : Foreign V).HonestSingly := by
  intro _ n j inputCount reads hj hreads x y hagree
  obtain rfl := Except.ok.inj hreads
  have hlengths := hagree.length_eqs
  have hcount : inputCount = x.length := by simpa using hlengths.1
  by_cases hn : n ≤ x.length
  · simp only [forgetful, dif_pos hn, dif_pos (hlengths.2 ▸ hn)]
    intro k hk
    obtain ⟨hkn, rfl⟩ := getElem?_onlyResult.mp hk
    have hinput : x[k]? = y[k]? := hagree.getElem? (by
      simp [findIdx_onlyResult hj]
      omega)
    have hx : k < x.length := by omega
    have hy : k < y.length := by omega
    rw [List.getElem?_eq_getElem hx, List.getElem?_eq_getElem hy] at hinput
    simpa [hkn] using hinput
  · simp only [forgetful, dif_neg hn, dif_neg (hlengths.2 ▸ hn)]
    trivial

/-- The registry with this function alone. -/
def Registry.forgetting : Registry V := { calls := #[.live .forgetful] }

theorem Registry.forgetting_honestSingly : (forgetting : Registry V).HonestSingly := by
  intro family id f hget
  obtain rfl : f = .forgetful := get_only hget
  exact Foreign.forgetful_honestSingly

namespace Tape

/-- Two inputs handed on by a function that forgets. -/
def handedOn (dependents : List Nat) : Tape Float :=
  { (new 2 {}).push (.foreign .call 0 0 2 [0, 1]) with deps := some dependents }

/-- The second result is needed alone, so the first input is bound to zero. -/
def handedOnSecond : Tape Float :=
  { (new 2 {}).push (.foreign .call 0 0 2 [2, 1]) with deps := some [4] }

theorem dropDead_checked_handedOn :
    Scalar.lt (Scalar.zero : Float) Scalar.zero = false ∧
      (Registry.forgetting (V := Float)).HonestSingly ∧
      (∀ dependents, (handedOn dependents).options.checkDependence = true) ∧
      (handedOn [4]).dropDead .forgetting = .ok handedOnSecond ∧
      ((handedOn [4]).observe .forgetting [5, 7]).outcome
        = .ok { dependents := [7], compareFalse := 0 } ∧
      (∃ a, (handedOnSecond.observe .forgetting [5, 7]).outcome = .ok a ∧ a.dependents = [7]) ∧
      (handedOn [4]).unchecked.dropDead .forgetting = .ok handedOnSecond.unchecked ∧
      (handedOn [3, 4]).dropDead .forgetting
        = .error (.dependenceOmitted .call 0 "forgetful" 1) ∧
      (handedOn [3, 4]).Omits .forgetting .call 0 "forgetful" 1 := by
  have hhonest : (Registry.forgetting (V := Float)).HonestSingly := Registry.forgetting_honestSingly
  have hdrop : (handedOn [4]).dropDead .forgetting = .ok handedOnSecond := by
    with_unfolding_all rfl
  have hstop : (handedOn [3, 4]).dropDead .forgetting
      = .error (.dependenceOmitted .call 0 "forgetful" 1) := by with_unfolding_all rfl
  have ha : ((handedOn [4]).observe .forgetting [5, 7]).outcome
      = .ok { dependents := [7], compareFalse := 0 } := by rfl
  obtain ⟨hkept, -, hunchecked⟩ := dropDead_checked (handedOn [4]) .forgetting rfl
  obtain ⟨-, homits, -⟩ := dropDead_checked (handedOn [3, 4]) .forgetting rfl
  obtain ⟨a, hobserve, hdeps, -⟩ := hkept Binary64.zero_not_lt hhonest _ hdrop [5, 7] _ ha
  exact ⟨Binary64.zero_not_lt, hhonest, fun _ => rfl, hdrop, ha, ⟨a, hobserve, hdeps⟩,
    hunchecked _ hdrop, hstop, homits _ _ _ _ hstop⟩

end Tape

end OpTape
