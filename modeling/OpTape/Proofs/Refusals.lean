import OpTape.Proofs.Dropping
import OpTape.Proofs.Folding
/-
  The failures that a pass can bring in. Dropping dead code gives a registered function zero for
  the inputs that its needed results are said not to read, and folding constants gives it
  undefined inputs. What a function promises is about the values of its results, not about
  success, so it may refuse inputs that no evaluation of the old tape gave it. Nothing else fails
  (`Tape.fails_only_refused`): with answers on dependence at hand, both passes can decide on every
  usage and carry out what they decided, and constancy that is drawn from dependence is as good
  as dependence itself.
-/
namespace OpTape

variable {V ε : Type}

/-! ## Constancy drawn from dependence -/

theorem eq_ok_of_collect {α : Type} {n : Nat} {f : Fin n → Except ε α} {v : Vector α n}
    (h : collect n f = .ok v) (i : Fin n) : f i = .ok v[i] := by
  induction n with
  | zero => exact i.elim0
  | succ n ih =>
    simp only [collect, bind_eq_ok_iff] at h
    obtain ⟨start, hstart, last, hlast, h⟩ := h
    obtain rfl := Except.ok.inj h
    cases i using Fin.lastCases with
    | last => simpa using hlast
    | cast i => simpa using ih hstart i

theorem exists_collect {α : Type} {n : Nat} {f : Fin n → Except ε α}
    (h : ∀ i, ∃ a, f i = .ok a) : ∃ v, collect n f = .ok v := by
  induction n with
  | zero => exact ⟨#v[], rfl⟩
  | succ n ih =>
    obtain ⟨start, hstart⟩ := ih fun i => h i.castSucc
    obtain ⟨last, hlast⟩ := h (Fin.last n)
    exact ⟨start.push last, by simp only [collect, hstart, hlast]; rfl⟩

theorem length_onlyResult (n j : Nat) : (onlyResult n j).length = n := by
  simp [onlyResult]

/-- All that a constant result reads alone is constant. -/
theorem reads_of_constancyOfDependence
    {dependence : List Bool → (inputCount : Nat) → Except String (Vector Bool inputCount)}
    {constant : List Bool} {n : Nat} {flags : Vector Bool n}
    (h : constancyOfDependence dependence constant n = .ok flags) {j : Nat}
    (hj : flags.toList[j]? = some true) :
    j < n ∧ ∃ reads, dependence (onlyResult n j) constant.length = .ok reads ∧
      ∀ k : Nat, reads.toList[k]? = some true → constant[k]? = some true := by
  obtain ⟨hlt, hflag⟩ := List.getElem?_eq_some_iff.mp hj
  have hlt : j < n := by simpa using hlt
  obtain ⟨reads, hreads, hall⟩ := bind_eq_ok_iff.mp (eq_ok_of_collect h ⟨j, hlt⟩)
  refine ⟨hlt, reads, hreads, fun k hk => ?_⟩
  have hconstant : k < constant.length := by
    simpa using (List.getElem?_eq_some_iff.mp hk).1
  have hzip : (reads.toList.zip constant)[k]? = some (true, constant[k]) :=
    List.getElem?_zip_eq_some.mpr ⟨hk, List.getElem?_eq_getElem hconstant⟩
  have hall' : (reads.toList.zip constant).all (fun pair => !pair.1 || pair.2) = true := by
    rw [Except.ok.inj hall]
    simpa using hflag
  have hpair := List.all_eq_true.mp hall' _ (List.mem_of_getElem? hzip)
  rw [List.getElem?_eq_getElem hconstant]
  simpa using hpair

namespace Foreign

variable {f : Foreign V}

/-- The function leaves it to its answers on dependence which results are constant. -/
def DerivesConstancy (f : Foreign V) : Prop :=
  ∀ callId constant resultCount, f.constancy callId constant resultCount
    = constancyOfDependence (f.dependence callId) constant resultCount

theorem KeepsValues.keepsConstants (hf : f.KeepsValues) (hd : f.DerivesConstancy) :
    f.KeepsConstants := by
  intro callId constant n flags hflags x y hagree a b ha hb j hj
  rw [hd] at hflags
  obtain ⟨hlt, reads, hreads, hmarks⟩ := reads_of_constancyOfDependence hflags hj
  exact hf callId _ n _ reads (length_onlyResult n j) hreads x y
    (hagree.mono (by simp) hmarks) a b ha hb j (getElem?_onlyResult.mpr ⟨hlt, rfl⟩)

theorem Honest.honestSingly (hf : f.Honest) : f.HonestSingly := by
  intro callId n j inputCount reads hj hreads x y hagree
  have hany : (onlyResult n j).any (·) :=
    List.any_eq_true.mpr ⟨true, List.mem_of_getElem? (getElem?_onlyResult.mpr ⟨hj, rfl⟩), rfl⟩
  have hsame := hf callId _ inputCount reads hany hreads x y hagree
  rwa [length_onlyResult] at hsame

theorem HonestSingly.soundConstancy (hf : f.HonestSingly) (hd : f.DerivesConstancy) :
    f.SoundConstancy := by
  intro callId constant n flags hany hflags x y hagree
  rw [hd] at hflags
  refine .of_each hany (by simp) fun j hj hflag => ?_
  obtain ⟨hlt, reads, hreads, hmarks⟩ := reads_of_constancyOfDependence hflags hflag
  exact hf callId n j _ reads hlt hreads x y (hagree.mono (by simp) hmarks)

end Foreign

namespace Registry

variable {r : Registry V}

/-- Every registered function leaves constancy to its answers on dependence. -/
def DerivesConstancy (r : Registry V) : Prop :=
  ∀ family id f, r.get family id = .ok f → f.DerivesConstancy

theorem KeepsValues.keepsConstants (hr : r.KeepsValues) (hd : r.DerivesConstancy) :
    r.KeepsConstants :=
  fun family id f hget => (hr family id f hget).keepsConstants (hd family id f hget)

theorem Honest.soundConstancy (hr : r.Honest) (hd : r.DerivesConstancy) : r.SoundConstancy :=
  fun family id f hget => (hr family id f hget).honestSingly.soundConstancy (hd family id f hget)

/-- Where every answer on dependence is given, so is every answer on constancy. -/
theorem DerivesConstancy.exists_constancy (hd : r.DerivesConstancy) {family : Family}
    {id callId n inputCount : Nat}
    (h : ∀ needed : List Bool, needed.length = n →
      ∃ reads, r.dependence family id callId needed inputCount = .ok reads)
    {constant : List Bool} (hlength : constant.length = inputCount) :
    ∃ flags, r.constancy family id callId constant n = .ok flags := by
  subst hlength
  obtain ⟨_, hreads⟩ := h (List.replicate n false) (by simp)
  obtain ⟨f, hget, -⟩ := dependence_eq_ok hreads
  have hanswers : ∀ j : Fin n, ∃ isConstant, (do
      let reads ← f.dependence callId (onlyResult n j) constant.length
      return (reads.toList.zip constant).all fun pair => !pair.1 || pair.2)
      = Except.ok isConstant := by
    intro j
    obtain ⟨reads, hreads⟩ := h (onlyResult n j) (length_onlyResult n j)
    obtain ⟨f', hget', hf⟩ := dependence_eq_ok hreads
    obtain rfl : f = f' := Except.ok.inj (hget.symm.trans hget')
    exact ⟨_, bind_eq_ok_iff.mpr ⟨reads, hf, rfl⟩⟩
  obtain ⟨flags, hflags⟩ := exists_collect hanswers
  refine ⟨flags, bind_eq_ok_iff.mpr ⟨f, hget, mapError_eq_ok_iff.mpr ?_⟩⟩
  rw [hd family id f hget]
  exact hflags

end Registry

/-! ## Both passes -/

namespace Tape

variable {r : Registry V} {t : Tape V}

/-- Every function that the tape calls says what any of its results read. -/
def DependenceAnswered (t : Tape V) (r : Registry V) : Prop :=
  ∀ family id callId n inputs, .foreign family id callId n inputs ∈ t.body.toList →
    ∀ needed : List Bool, needed.length = n →
      ∃ reads, r.dependence family id callId needed inputs.length = .ok reads

theorem DependenceAnswered.exists_liveness (h : t.DependenceAnswered r)
    (hcheck : t.options.checkDependence = false) : ∃ result, t.liveness r = .ok result := by
  refine Live.exists_sweep _ _ fun family id callId n inputs hmem needed hlength => ?_
  obtain ⟨reads, hreads⟩ := h family id callId n inputs hmem needed hlength
  refine ⟨reads.toList, bind_eq_ok_iff.mpr ⟨reads, hreads, ?_⟩⟩
  rw [hcheck]
  rfl

variable [Scalar V]

theorem DependenceAnswered.constancyAnswered (h : t.DependenceAnswered r)
    (hd : r.DerivesConstancy) : t.ConstancyAnswered r :=
  Known.answered_of_constancy (fun family id callId n inputs hmem _ hlength =>
    hd.exists_constancy (h family id callId n inputs hmem) hlength) _

end Tape

/-! ## A function that refuses some inputs -/

/-- Hands on its inputs, each result the input at its place, unless it refuses one of them. -/
def Foreign.guarded (refuses : V → Bool) : Foreign V where
  name := "guarded"
  apply _ inputs n :=
    if inputs.any refuses then .error "refused"
    else if h : n ≤ inputs.length then .ok (.ofFn fun j => inputs.get (j.castLE h))
    else .error "too few inputs"
  dependence _ needed _ := .ok (.ofFn fun k => needed.getD k false)

theorem Foreign.guarded_eq_ok {refuses : V → Bool} {callId n : Nat} {inputs : List V}
    {a : Vector V n} (h : (guarded refuses).apply callId inputs n = .ok a) :
    n ≤ inputs.length ∧ ∀ j < n, a[j]? = inputs[j]? := by
  simp only [guarded] at h
  split at h
  · cases h
  split at h
  · rename_i hn
    obtain rfl := Except.ok.inj h
    refine ⟨hn, fun j hj => ?_⟩
    have hlt : j < inputs.length := by omega
    simp [hj, hlt]
  · cases h

theorem Foreign.guarded_keepsValues (refuses : V → Bool) : (guarded refuses).KeepsValues := by
  intro callId needed n inputCount reads hneeded hreads x y hagree a b ha hb j hj
  obtain ⟨hx, hax⟩ := guarded_eq_ok ha
  obtain ⟨-, hby⟩ := guarded_eq_ok hb
  obtain rfl := Except.ok.inj hreads
  have hlt : j < n := hneeded ▸ (List.getElem?_eq_some_iff.mp hj).1
  have hcount : inputCount = x.length := by simpa using hagree.length_eqs.1
  rw [hax j hlt, hby j hlt]
  refine hagree.getElem? ?_
  have hj' : j < inputCount := by omega
  simp [hj', List.getD_eq_getElem?_getD, hj]

/-- The function is honest about success as well if it refuses nothing. -/
theorem Foreign.guarded_honest {refuses : V → Bool} (h : ∀ v, refuses v = false) :
    (guarded refuses).Honest := by
  intro callId needed inputCount reads _ hreads x y hagree
  have hkeeps := guarded_keepsValues refuses callId needed _ inputCount reads rfl hreads x y hagree
  have hlength := hagree.length_eqs.2
  have hnone (z : List V) : ¬ z.any refuses = true := by simp [h]
  by_cases hn : needed.length ≤ x.length
  · have hok {z : List V} (hz : needed.length ≤ z.length) :
        ∃ a, (guarded refuses).apply callId z needed.length = .ok a :=
      ⟨_, (if_neg (hnone z)).trans (dif_pos hz)⟩
    obtain ⟨a, ha⟩ := hok hn
    obtain ⟨b, hb⟩ := hok (hlength ▸ hn)
    rw [ha, hb]
    exact hkeeps a b ha hb
  · have herror {z : List V} (hz : ¬ needed.length ≤ z.length) :
        (guarded refuses).apply callId z needed.length = .error "too few inputs" :=
      (if_neg (hnone z)).trans (dif_neg hz)
    rw [herror hn, herror (hlength ▸ hn)]
    trivial

theorem Registry.only_guarded_keepsValues (refuses : V → Bool) :
    (only (.guarded refuses)).KeepsValues := by
  intro family id f hget
  obtain rfl := get_only hget
  exact Foreign.guarded_keepsValues refuses

theorem Registry.only_guarded_derivesConstancy (refuses : V → Bool) :
    (only (.guarded refuses)).DerivesConstancy := by
  intro family id f hget
  obtain rfl := get_only hget
  exact fun _ _ _ => rfl

namespace Tape

variable {r : Registry V} {t : Tape V} [Scalar V]

/-- Where the tape evaluates successfully, a pass brings in no failure but one: a function that
keeps its values may refuse the inputs that the pass gives it in the place of others. Dropping
dead code succeeds, and its tape evaluates successfully as well, unless a call refuses zero for
an input that the needed results are said not to read. Folding constants succeeds, and its tape
shows what the tape shows, unless a call with constant results refuses undefined inputs. Where
functions are honest about success too, there are no such calls. -/
theorem fails_only_refused [DecidableEq V] (ht : t.Reachable) (hr : r.KeepsValues)
    (hderives : r.DerivesConstancy) (hanswered : t.DependenceAnswered r)
    (hzero : Scalar.lt (Scalar.zero : V) Scalar.zero = false) {x : List V} {a : Answer V}
    (ha : (t.observe r x).outcome = .ok a) :
    (t.options.checkDependence = false → ∃ t', t.dropDead r = .ok t' ∧
      ((∃ a', (t'.observe r x).outcome = .ok a' ∧ a'.dependents = a.dependents) ∨
        ∃ fault, (t'.observe r x).outcome = .error fault ∧ t.RefusesUnread r x fault)) ∧
    ((∃ t', t.foldConstants r = .ok t' ∧ t'.observe r x = t.observe r x) ∨
      ∃ fault, t.foldConstants r = .error fault ∧ t.RefusesUnknown r x fault) ∧
    (r.Honest → ∀ fault, ¬ t.RefusesUnread r x fault ∧ ¬ t.RefusesUnknown r x fault) := by
  have hconstants := hr.keepsConstants hderives
  refine ⟨fun hcheck => ?_, ?_, fun hhonest fault => ⟨?_, ?_⟩⟩
  · obtain ⟨⟨live, actions⟩, hlive⟩ := hanswered.exists_liveness hcheck
    obtain ⟨t', h⟩ := ht.wellFormed.exists_dropDead hlive
    refine ⟨t', h, ?_⟩
    rcases observe_of_dropDead_cases hzero (hr.supportsValues _) h ha with
      ⟨a', ha', hdeps, -⟩ | hrefused
    · exact Or.inl ⟨a', ha', hdeps⟩
    · exact Or.inr hrefused
  · rcases ht.wellFormed.foldConstants_cases hconstants (hanswered.constancyAnswered hderives) ha
      with ⟨t', h⟩ | hrefused
    · exact Or.inl ⟨t', h, observe_of_foldConstants_of_ok hconstants h ha⟩
    · exact Or.inr hrefused
  · exact not_refusesUnread (hhonest.supports t.options)
  · exact not_refusesUnknown (hhonest.soundConstancy hderives)

/-- The constant two and an independent handed on, with the constant as the dependent. -/
def guardedPair : Tape Float :=
  { ((new 1 { checkDependence := false }).push (.constant 2)).push (.foreign .call 0 0 2 [2, 0])
    with deps := some [3] }

/-- The independent is not read for the dependent, and is zero here. -/
def guardedConstant : Tape Float :=
  { ((new 1 { checkDependence := false }).push (.constant 2)).push (.foreign .call 0 0 2 [2, 1])
    with deps := some [3] }

theorem reachable_guardedPair : guardedPair.Reachable :=
  (((Reachable.new 1 _).push (by decide)).push (by decide)).withDependents rfl (by decide)

theorem guardedPair_dependenceAnswered (refuses : Float → Bool) :
    guardedPair.DependenceAnswered (.only (.guarded refuses)) := by
  intro family id callId n inputs hmem needed hneeded
  obtain ⟨rfl, rfl, rfl, rfl, rfl⟩ :
      family = .call ∧ id = 0 ∧ callId = 0 ∧ n = 2 ∧ inputs = [2, 0] := by
    simpa [guardedPair, new] using hmem
  exact ⟨_, rfl⟩

/-- A function that refuses what is not a number stops the folding of constants, and one that
refuses zero fails where dead code was dropped. -/
theorem passes_refused_guardedPair :
    guardedPair.Reachable ∧ guardedPair.options.checkDependence = false ∧
      (∀ refuses, (Registry.only (.guarded refuses) : Registry Float).KeepsValues ∧
        (Registry.only (.guarded refuses) : Registry Float).DerivesConstancy ∧
        guardedPair.DependenceAnswered (.only (.guarded refuses))) ∧
      (guardedPair.observe (.only (.guarded Float.isNaN)) [5]).outcome
        = .ok { dependents := [2], compareFalse := 0 } ∧
      guardedPair.foldConstants (.only (.guarded Float.isNaN))
        = .error (.applyFailed .call 0 "guarded" "refused") ∧
      (guardedPair.observe (.only (.guarded (· == 0))) [5]).outcome
        = .ok { dependents := [2], compareFalse := 0 } ∧
      guardedPair.dropDead (.only (.guarded (· == 0))) = .ok guardedConstant ∧
      (guardedConstant.observe (.only (.guarded (· == 0))) [5]).outcome
        = .error (.applyFailed .call 0 "guarded" "refused") := by
  refine ⟨reachable_guardedPair, rfl, fun refuses => ⟨Registry.only_guarded_keepsValues refuses,
    Registry.only_guarded_derivesConstancy refuses, guardedPair_dependenceAnswered refuses⟩,
    ?_, ?_, ?_, ?_, ?_⟩
  · rfl
  · rfl
  · rfl
  · with_unfolding_all rfl
  · rfl

theorem fails_only_refused_guardedPair :
    guardedPair.Reachable ∧
      (Registry.only (.guarded fun _ => false) : Registry Float).KeepsValues ∧
      (Registry.only (.guarded fun _ => false) : Registry Float).DerivesConstancy ∧
      guardedPair.DependenceAnswered (.only (.guarded fun _ => false)) ∧
      Scalar.lt (Scalar.zero : Float) Scalar.zero = false ∧
      (guardedPair.observe (.only (.guarded fun _ => false)) [5]).outcome
        = .ok { dependents := [2], compareFalse := 0 } ∧
      guardedPair.options.checkDependence = false ∧
      (Registry.only (.guarded fun _ => false) : Registry Float).Honest ∧
      (∃ t', guardedPair.dropDead (.only (.guarded fun _ => false)) = .ok t' ∧
        ∃ a', (t'.observe (.only (.guarded fun _ => false)) [5]).outcome = .ok a' ∧
          a'.dependents = [2]) ∧
      ∃ t', guardedPair.foldConstants (.only (.guarded fun _ => false)) = .ok t' ∧
        t'.observe (.only (.guarded fun _ => false)) [5]
          = guardedPair.observe (.only (.guarded fun _ => false)) [5] := by
  have hkeeps := Registry.only_guarded_keepsValues (V := Float) fun _ => false
  have hderives := Registry.only_guarded_derivesConstancy (V := Float) fun _ => false
  have hanswered := guardedPair_dependenceAnswered fun _ => false
  have ha : (guardedPair.observe (.only (.guarded fun _ => false)) [5]).outcome
      = .ok { dependents := [2], compareFalse := 0 } := by rfl
  have hhonest : (Registry.only (.guarded fun _ => false) : Registry Float).Honest := by
    intro family id f hget
    obtain rfl := Registry.get_only hget
    exact Foreign.guarded_honest fun _ => rfl
  obtain ⟨hdrop, hfold, hnone⟩ := fails_only_refused reachable_guardedPair hkeeps hderives hanswered
    Binary64.zero_not_lt ha
  refine ⟨reachable_guardedPair, hkeeps, hderives, hanswered, Binary64.zero_not_lt, ha, rfl, hhonest,
    ?_, ?_⟩
  · obtain ⟨t', h, ⟨a', ha', hdeps⟩ | ⟨fault, -, hrefused⟩⟩ := hdrop rfl
    · exact ⟨t', h, a', ha', hdeps⟩
    · exact absurd hrefused (hnone hhonest fault).1
  · rcases hfold with hfolded | ⟨fault, -, hrefused⟩
    · exact hfolded
    · exact absurd hrefused (hnone hhonest fault).2

end Tape

end OpTape
