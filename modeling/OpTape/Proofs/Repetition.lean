import OpTape.Proofs.Selection
/-
  Dropping dead code twice. A tape is handed back by actions that each leave their usage as it
  stands (`rebuild_of_kept`): copies, and rebindings of inputs that are zero where they are not
  flagged. The second sweep decides on just these (`Live.Matches.exists_sweeps`): what is needed on
  the new tape is what was needed on the old one, under its new name, so every registered function
  is asked the same question again and gives the same answer.
-/
namespace OpTape

variable {V : Type}

/-! ## Actions that leave a tape as it is -/

namespace Rebuild

variable {t : Tape V} {u : Usage V} {action : Action V} {us : List (Usage V)}
  {actions : List (Action V)}

/-- A tape that was rebuilt as it is: all values and vectors have kept their numbers. -/
def unchanged (t : Tape V) : Rebuild V :=
  { tape := t
    values := (Array.range t.valueCount).map some
    vectors := (Array.range t.vectorCount).map some }

theorem value?_unchanged (t : Tape V) {i : Nat} (hi : i < t.valueCount) :
    (unchanged t).value? i = some i := by
  simp [value?, unchanged, hi]

theorem vector?_unchanged (t : Tape V) {w : Nat} (hw : w < t.vectorCount) :
    (unchanged t).vector? w = some w := by
  simp [vector?, unchanged, hw]

theorem replaced_unchanged (t : Tape V) (u : Usage V) :
    (unchanged t).replaced u u = unchanged (t.push u) := by
  have htape : ((unchanged t).replaced u u).tape = t.push u := by
    rw [replaced_eq, tape_enter, tape_enterVector, tape_pushed]
    rfl
  have hvalues : ((unchanged t).replaced u u).values
      = (Array.range (t.push u).valueCount).map some := by
    rw [(entered_replaced (unchanged t) u u).values]
    have hrange : List.range t.valueCount ++ List.range' t.valueCount u.resultCount
        = List.range (t.valueCount + u.resultCount) := by
      simp [List.range_eq_range', ← List.range'_append_1]
    apply Array.ext'
    simp [unchanged, ← List.map_append, hrange]
  have hvectors : ((unchanged t).replaced u u).KeepsVectors :=
    KeepsVectors.replaced (s := unchanged t) rfl rfl
  rw [KeepsVectors, htape] at hvectors
  generalize (unchanged t).replaced u u = b at htape hvalues hvectors
  cases b
  subst htape hvalues hvectors
  rfl

/-- What keeping a usage makes of it is recorded in its place. -/
theorem step_of_kept {b : Rebuild V} {new : Usage V}
    (hu : Usage.Kept b.tape.zeroIndex b.value? b.vector? u action new)
    (hadmits : b.tape.Admits new) : Step b u action (b.replaced u new) := by
  cases hu with
  | copy h => exact .copy h hadmits
  | rebind hlength h =>
    exact .rebind (carryNeeded?_foreign_eq_some_iff.mpr ⟨hlength, _, h, rfl⟩) hadmits

theorem step_unchanged (hu : Usage.Kept t.zeroIndex some some u action u)
    (hadmits : t.Admits u) : Step (unchanged t) u action (unchanged (t.push u)) := by
  have hkept : Usage.Kept t.zeroIndex (unchanged t).value? (unchanged t).vector? u action u := by
    refine hu.transfer (fun i hi j hij => ?_) fun w hw w' hww' => ?_
    · obtain rfl := Option.some.inj hij
      exact value?_unchanged t (hadmits.1 i hi)
    · obtain rfl := Option.some.inj hww'
      exact vector?_unchanged t (hadmits.2 w hw)
  rw [← replaced_unchanged]
  exact step_of_kept hkept hadmits

theorem run?_unchanged {zeroIndex : Nat}
    (h : List.Forall₂ (fun u action => Usage.Kept zeroIndex some some u action u) us actions)
    (hzero : t.zeroIndex = zeroIndex) (hfit : Usage.FitAll t.valueCount t.vectorCount us) :
    (unchanged t).run? (us.zip actions) = some (unchanged (us.foldl Tape.push t)) := by
  induction h generalizing t with
  | nil => rfl
  | cons hu _ ih =>
    subst hzero
    exact run?_cons_eq_some_iff.mpr ⟨_, step_unchanged hu hfit.1, ih rfl hfit.2⟩

end Rebuild

namespace Tape

variable {t : Tape V} {actions : List (Action V)}

theorem body_foldl_push (t : Tape V) (us : List (Usage V)) :
    (us.foldl push t).body = t.body ++ us := by
  induction us generalizing t with
  | nil => simp
  | cons u us ih =>
    rw [List.foldl_cons, ih, body_push]
    simp

/-- Where every usage is left as it stands, all values and vectors keep their numbers. -/
theorem WellFormed.run?_of_kept (ht : t.WellFormed)
    (h : List.Forall₂ (fun u action => Usage.Kept t.zeroIndex some some u action u) t.body.toList
      actions) : (Rebuild.start t).run? (t.body.toList.zip actions)
        = some (.unchanged { t with deps := none }) := by
  have hstart : Rebuild.start t = .unchanged (.new t.indCount t.options) := by
    simp [Rebuild.start, Rebuild.unchanged, Tape.new]
  have hrun := Rebuild.run?_unchanged (t := .new t.indCount t.options) h rfl ht.body
  rw [← hstart] at hrun
  have hgrows : (Tape.new t.indCount t.options).Grows _ := Rebuild.grows_of_run? hrun
  have hbody : (t.body.toList.foldl Tape.push (Tape.new t.indCount t.options)).body = t.body := by
    rw [body_foldl_push]
    simp [Tape.new]
  rw [hrun]
  congr 2
  exact Tape.ext hgrows.indCount_eq hgrows.options_eq hbody hgrows.deps_eq

/-- Actions that leave every usage as it stands give the tape back. -/
theorem WellFormed.rebuild_of_kept (ht : t.WellFormed) {ds : List Nat} (hdeps : t.deps = some ds)
    (h : List.Forall₂ (fun u action => Usage.Kept t.zeroIndex some some u action u) t.body.toList
      actions) : t.rebuild actions = .ok t := by
  have hbounds (i : Nat) (hi : i ∈ ds) : i < t.valueCount :=
    ht.dependents i (by rwa [Tape.dependents, hdeps])
  have hds : t.dependents.mapM (Rebuild.unchanged { t with deps := none }).value? = some ds := by
    rw [Tape.dependents, hdeps, mapM_eq_some_iff]
    exact List.map_congr_left fun i hi => Rebuild.value?_unchanged _ (hbounds i hi)
  refine rebuild_eq_ok_iff.mpr ⟨by simpa using h.length_eq.symm, _, ht.run?_of_kept h, ?_⟩
  refine Rebuild.finish?_eq_some_iff.mpr ⟨ds, hds, ?_⟩
  exact setDependents?_eq_some_iff.mpr ⟨⟨rfl, hbounds⟩, Tape.ext rfl rfl rfl hdeps.symm⟩

end Tape

/-! ## The second sweep -/

section

variable {value : Nat → Option Nat} {zeroIndex : Nat}

/-- The marked inputs of a rebound function are the new names of those of the old one. -/
theorem map_marked {inputs inputs' : List Nat} {flags : List Bool}
    (hlength : flags.length = inputs.length)
    (h : (flags.zip inputs).mapM (fun (flag, i) => if flag then value i else some zeroIndex)
      = some inputs') :
    (Live.marked inputs flags).map value = (Live.marked inputs' flags).map some := by
  rw [mapM_eq_some_iff] at h
  induction inputs generalizing flags inputs' with
  | nil =>
    cases inputs' with
    | nil => rfl
    | cons => simp at h
  | cons i inputs ih =>
    cases flags with
    | nil => cases hlength
    | cons flag flags =>
      cases inputs' with
      | nil => cases h
      | cons i' inputs' =>
        obtain ⟨hi', hrest⟩ := List.cons.inj h
        have htail := ih (Nat.succ.inj hlength) hrest
        cases flag with
        | false => exact htail
        | true => exact congrArg₂ List.cons hi' htail

/-- Rebinding the inputs of a rebound function changes nothing. -/
theorem mapM_rebound {inputs inputs' : List Nat} {flags : List Bool}
    (hlength : flags.length = inputs.length)
    (h : (flags.zip inputs).mapM (fun (flag, i) => if flag then value i else some zeroIndex)
      = some inputs') :
    (flags.zip inputs').mapM (fun (flag, i) => if flag then some i else some zeroIndex)
      = some inputs' := by
  rw [mapM_eq_some_iff] at h ⊢
  induction inputs generalizing flags inputs' with
  | nil =>
    cases inputs' with
    | nil => simp
    | cons => simp at h
  | cons i inputs ih =>
    cases flags with
    | nil => cases hlength
    | cons flag flags =>
      cases inputs' with
      | nil => cases h
      | cons i' inputs' =>
        obtain ⟨hi', hrest⟩ := List.cons.inj h
        have htail := ih (Nat.succ.inj hlength) hrest
        cases flag with
        | false => exact congrArg₂ List.cons hi' htail
        | true => exact congrArg₂ List.cons rfl htail

end

namespace Live

/-- What is needed on the new tape is what is needed on the old one, under its new name. -/
structure Matches (value vector : Nat → Option Nat) (n m : Nat) (live live' : Live) : Prop where
  value : ∀ {i j}, i < n → value i = some j → live'.values.contains j = live.values.contains i
  vector : ∀ {w w'}, w < m → vector w = some w' →
    live'.vectors.contains w' = live.vectors.contains w

variable {value vector : Nat → Option Nat} {n m : Nat} {live live' : Live}

namespace Matches

theorem pattern_eq (h : Matches value vector n m live live') {first first' count : Nat}
    (hle : first + count ≤ n) (hvalue : ∀ j < count, value (first + j) = some (first' + j)) :
    live'.pattern first' count = live.pattern first count := by
  rw [pattern, pattern, List.range'_eq_map_range, List.range'_eq_map_range, List.map_map,
    List.map_map]
  refine List.map_congr_left fun j hj => ?_
  have hlt := List.mem_range.mp hj
  exact h.value (Nat.lt_of_lt_of_le (Nat.add_lt_add_left hlt first) hle) (hvalue j hlt)

theorem insertAll (h : Matches value vector n m live live') (hinj : InjectiveBelow value n)
    {xs xs' : List Nat} (hxs : xs.map value = xs'.map some) (hlt : ∀ i ∈ xs, i < n) :
    Matches value vector n m { live with values := live.values.insertAll xs }
      { live' with values := live'.values.insertAll xs' } where
  value hi hij := by
    rw [IndexSet.contains_insertAll, IndexSet.contains_insertAll, hinj.contains_eq hxs hlt hi hij,
      h.value hi hij]
  vector := h.vector

theorem insertVector (h : Matches value vector n m live live') (hinj : InjectiveBelow vector m)
    {w w' : Nat} (hw : vector w = some w') (hlt : w < m) :
    Matches value vector n m { live with vectors := live.vectors.insert w }
      { live' with vectors := live'.vectors.insert w' } where
  value := h.value
  vector {v v'} hv hvv' := by
    have heq : (w' == v') = (w == v) := by
      rw [Bool.eq_iff_iff, beq_iff_eq, beq_iff_eq]
      constructor
      · rintro rfl
        exact hinj hlt hv hw hvv'
      · rintro rfl
        exact Option.some.inj (hw.symm.trans hvv')
    rw [IndexSet.contains_insert, IndexSet.contains_insert, heq, h.vector hv hvv']

variable {options : Options} {zeroIndex : Nat} {p p' : Place} {u u' : Usage V}

/-- A renamed usage is wanted where the usage was. -/
theorem wants_eq (h : Matches value vector n m live live') (hinj : InjectiveBelow value n)
    (hzero : value zeroIndex = some zeroIndex) (hzeroLt : zeroIndex < n)
    (hu : Usage.Renames value vector u u') (hreads : ∀ i ∈ u.reads, i < n)
    (hvectors : ∀ w ∈ u.vector?, w < m) (hresults : p.first + u.resultCount ≤ n)
    (hvalue : ∀ j < u.resultCount, value (p.first + j) = some (p'.first + j))
    (hvector : u.startsVector = true → p.vector < m ∧ vector p.vector = some p'.vector) :
    live'.wants options zeroIndex p' u' = live.wants options zeroIndex p u := by
  have hpattern := congrArg (·.any (·)) (h.pattern_eq hresults hvalue)
  cases hu with
  | compare => rfl
  | @print _ _ flag _ flag' _ hx _ =>
    have hflag : (flag' != zeroIndex) = (flag != zeroIndex) := by
      rw [Bool.eq_iff_iff, bne_iff_ne, bne_iff_ne, not_iff_not]
      constructor
      · rintro rfl
        exact hinj (hreads flag (by simp [Usage.reads, Usage.args])) hzeroLt hx hzero
      · rintro rfl
        exact Option.some.inj (hx.symm.trans hzero)
    rw [wants, wants, hflag]
  | vector => exact h.vector (hvector rfl).1 (hvector rfl).2
  | store hw => exact h.vector (hvectors _ rfl) hw
  | _ => exact hpattern

/-- A renamed usage that is kept brings in what the usage did. -/
theorem reading (h : Matches value vector n m live live') (hinj : InjectiveBelow value n)
    (hinjVector : InjectiveBelow vector m) (hu : Usage.Renames value vector u u')
    (hreads : ∀ i ∈ u.reads, i < n) (hvectors : ∀ w ∈ u.vector?, w < m) :
    Matches value vector n m (live.reading u) (live'.reading u') := by
  have hvalues := h.insertAll hinj hu.map_reads hreads
  cases hu with
  | load hw hx => exact hvalues.insertVector hinjVector hw (hvectors _ rfl)
  | _ => exact hvalues

variable {r : Registry V} {before behind behind' : Live} {action : Action V}
  {us us' : List (Usage V)} {actions : List (Action V)}

/-- What is decided on a usage that stays is decided on it again. A registered function is asked
about the same results, and its inputs that are not read are zero by then. -/
theorem exists_decides (h : Matches value vector n m live live') (hinj : InjectiveBelow value n)
    (hinjVector : InjectiveBelow vector m) (hzero : value zeroIndex = some zeroIndex)
    (hzeroLt : zeroIndex < n) (hu : Usage.Kept zeroIndex value vector u action u')
    (hdecides : Decides r options zeroIndex p live u before action)
    (hreads : ∀ i ∈ u.reads, i < n) (hvectors : ∀ w ∈ u.vector?, w < m)
    (hresults : p.first + u.resultCount ≤ n)
    (hvalue : ∀ j < u.resultCount, value (p.first + j) = some (p'.first + j))
    (hvector : u.startsVector = true → p.vector < m ∧ vector p.vector = some p'.vector) :
    ∃ before', Decides r options zeroIndex p' live' u' before' action ∧
      Matches value vector n m before before' ∧
      Usage.Kept zeroIndex some some u' action u' := by
  cases hu with
  | copy hu =>
    cases hdecides with
    | copy hwanted hkind =>
      have hwanted' :=
        (h.wants_eq hinj hzero hzeroLt hu hreads hvectors hresults hvalue hvector).trans hwanted
      exact ⟨_, .copy hwanted' (hu.kind_eq ▸ hkind),
        h.reading hinj hinjVector hu hreads hvectors, .copy (.refl u')⟩
  | @rebind family id callId count inputs inputs' flags hlength hinputs =>
    cases hdecides with
    | rebind hneeded hasked =>
      have hpattern : live'.pattern p'.first count = live.pattern p.first count :=
        h.pattern_eq hresults hvalue
      have hcount : inputs'.length = inputs.length := by
        have hmapped := length_of_mapM_some hinputs
        rwa [List.length_zip, hlength, Nat.min_self] at hmapped
      have hmarked (i : Nat) (hi : i ∈ marked inputs flags) : i < n :=
        hreads i (List.mem_append_left _ (mem_of_marked hi))
      rw [← hpattern] at hneeded
      rw [← hpattern, ← hcount] at hasked
      exact ⟨_, .rebind hneeded hasked, h.insertAll hinj (map_marked hlength hinputs) hmarked,
        .rebind (hlength.trans hcount.symm) (mapM_rebound hlength hinputs)⟩

/-- The second sweep decides on every usage that it stays as it is. -/
theorem exists_sweeps (h : Matches value vector n m behind behind') (hinj : InjectiveBelow value n)
    (hinjVector : InjectiveBelow vector m) (hzero : value zeroIndex = some zeroIndex)
    (hzeroLt : zeroIndex < n)
    (hselects : Usage.Selects zeroIndex value vector p p' us actions us')
    (hsweep : Sweeps r options zeroIndex behind p us live actions)
    (hfit : Usage.FitAll p.first p.vector us)
    (hend : us.foldl Place.past p = { first := n, vector := m }) :
    ∃ live' actions', Sweeps r options zeroIndex behind' p' us' live' actions' ∧
      Matches value vector n m live live' ∧
      List.Forall₂ (fun u action => Usage.Kept zeroIndex some some u action u) us' actions' := by
  induction hselects generalizing live with
  | nil =>
    cases hsweep
    exact ⟨behind', [], .nil _, h, .nil⟩
  | drop _ _ _ ih =>
    cases hsweep with
    | cons hrest hu =>
      cases hu with
      | drop => exact ih hrest hfit.2 hend
  | @keep p p' u u' action us us' actions hu hvalue hvector _ ih =>
    cases hsweep with
    | cons hrest hdecides =>
      obtain ⟨live', actions', hrest', hmatches, hkept⟩ := ih hrest hfit.2 hend
      rw [Usage.foldl_past, Usage.resultTotal_cons, List.countP_cons, Place.mk.injEq] at hend
      obtain ⟨before', hdecides', hbefore, hsame⟩ := hmatches.exists_decides hinj hinjVector hzero
        hzeroLt hu hdecides (fun i hi => Nat.lt_of_lt_of_le (hfit.1.1 i hi) (by omega))
        (fun w hw => Nat.lt_of_lt_of_le (hfit.1.2 w hw) (by omega)) (by omega) hvalue
        fun hstarts => ⟨by rw [if_pos hstarts] at hend; omega, hvector hstarts⟩
      exact ⟨before', action :: actions', .cons hrest' hdecides', hbefore, .cons hsame hkept⟩

end Matches

end Live

namespace Tape

variable [Scalar V] {t t' : Tape V} {r : Registry V} {value vector : Nat → Option Nat}
  {live : Live} {actions : List (Action V)}

omit [Scalar V] in
/-- The dependents are needed on a new tape as they were on the old one. -/
theorem matches_liveBehind (ht : t.WellFormed) (hinj : InjectiveBelow value t.valueCount)
    (hzero : value t.zeroIndex = some t'.zeroIndex) {ds : List Nat}
    (hds : t.dependents.mapM value = some ds) (hdeps : t'.deps = some ds) {m : Nat} :
    Live.Matches value vector t.valueCount m t.liveBehind t'.liveBehind where
  value {i j} hi hij := by
    have hmap : (t.zeroIndex :: t.dependents).map value
        = (t'.zeroIndex :: t'.dependents).map some := by
      rw [List.map_cons, List.map_cons, hzero, mapM_eq_some_iff.mp hds, Tape.dependents, hdeps]
      rfl
    have hlt : ∀ i ∈ t.zeroIndex :: t.dependents, i < t.valueCount :=
      List.forall_mem_cons.mpr ⟨t.zeroIndex_lt, ht.dependents⟩
    simp only [liveBehind, IndexSet.contains_insertAll, IndexSet.contains_empty]
    rw [hinj.contains_eq hmap hlt hi hij]
  vector _ _ := (IndexSet.contains_empty _).trans (IndexSet.contains_empty _).symm

theorem Selection.matches_behind (h : t.Selection (.copy :: actions) t' value vector)
    (ht : t.WellFormed) : Live.Matches value vector t.valueCount t.vectorCount t.liveBehind
      t'.liveBehind := by
  obtain ⟨ds, hds, hdeps⟩ := h.dependents
  have hzeroIndex : t'.zeroIndex = t.zeroIndex := h.indCount_eq
  exact matches_liveBehind ht h.value_injective (h.value_zero.trans (congrArg some hzeroIndex.symm))
    hds hdeps

/-- Nothing on the tape is dead: dropping dead code decides to keep every usage as it stands. -/
structure KeepsAll (t : Tape V) (r : Registry V) (live : Live) (actions : List (Action V)) :
    Prop where
  liveness : t.liveness r = .ok (live, actions)
  kept : List.Forall₂ (fun u action => Usage.Kept t.zeroIndex some some u action u) t.body.toList
    actions

/-- Dropping dead code leaves a tape on which nothing is dead. -/
theorem WellFormed.keepsAll_of_dropDead (ht : t.WellFormed) (h : t.dropDead r = .ok t') :
    ∃ live actions, t'.KeepsAll r live actions := by
  obtain ⟨live, actions, hsweep, hrebuild⟩ := dropDead_eq_ok h
  obtain ⟨value, vector, hselection⟩ := selection_of_rebuild hsweep hrebuild
  obtain ⟨live', actions', hsweep', -, hkept⟩ :=
    (hselection.matches_behind ht).exists_sweeps hselection.value_injective
      hselection.vector_injective hselection.value_zero t.zeroIndex_lt hselection.usages
      (sweeps_usages hsweep) ht.fitAll_placed t.foldl_past_usages
  have hzeroIndex : t'.zeroIndex = t.zeroIndex := hselection.indCount_eq
  rw [← hzeroIndex, ← hselection.options_eq] at hsweep'
  rw [← hzeroIndex] at hkept
  -- the zero constant is not recorded again
  cases hsweep' with
  | cons hbody _ =>
    cases hkept with
    | cons _ hkept => exact ⟨_, _, Live.sweep_eq_ok_iff.mpr hbody, hkept⟩

/-- A tape without dead code is handed back when dead code is dropped again. -/
theorem WellFormed.dropDead_of_dropDead (ht : t.WellFormed) (h : t.dropDead r = .ok t') :
    t'.dropDead r = .ok t' := by
  obtain ⟨live, actions, hall⟩ := ht.keepsAll_of_dropDead h
  obtain ⟨actions', hrebuild⟩ := exists_rebuild_of_dropDead h
  obtain ⟨ds, hdeps⟩ := rebuild_deps hrebuild
  exact bind_eq_ok_iff.mpr ⟨_, hall.liveness,
    (rebuild_wellFormed hrebuild).rebuild_of_kept hdeps hall.kept⟩

/-- Dropping dead code once is enough: doing it again gives the same tape, whatever the registered
functions answer. -/
theorem dropDead_idempotent [DecidableEq V] (ht : t.Reachable) (h : t.dropDead r = .ok t') :
    t'.dropDead r = .ok t' :=
  ht.wellFormed.dropDead_of_dropDead h

theorem dropDead_idempotent_handedOn : (handedOn [4]).Reachable ∧
    (handedOn [4]).dropDead .forgetting = .ok handedOnSecond ∧
    handedOnSecond.dropDead .forgetting = .ok handedOnSecond := by
  have hreachable : (handedOn [4]).Reachable :=
    ((Reachable.new 2 {}).push (by decide)).withDependents rfl (by decide)
  have hdrop : (handedOn [4]).dropDead .forgetting = .ok handedOnSecond := by
    with_unfolding_all rfl
  exact ⟨hreachable, hdrop, dropDead_idempotent hreachable hdrop⟩

end Tape

end OpTape
