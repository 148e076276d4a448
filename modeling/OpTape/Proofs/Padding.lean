import OpTape.Proofs.Repetition
/-
  Idle constants. `Usage.Pads` puts constants between the usages of a tape that nothing reads: one
  table takes each old value to the new one, another takes it back, and has no entry for an idle
  constant. The sweep over the padded tape decides on every other usage as before and drops what is
  idle (`Pads.exists_sweeps`). A selection determines the tape that is rebuilt from it
  (`Selection.rebuild_eq`), so dropping dead code takes the padding off
  (`KeepsAll.dropDead_of_pads`).
-/
namespace OpTape

variable {V : Type}

/-! ## Tables that go back -/

/-- Names that are taken back one by one are taken back as a list. -/
theorem mapM_back {value back : Nat → Option Nat} {xs ys : List Nat} (h : xs.mapM value = some ys)
    (hback : ∀ i ∈ xs, ∀ j, value i = some j → back j = some i) : ys.mapM back = some xs := by
  rw [mapM_eq_some_iff] at h ⊢
  induction xs generalizing ys with
  | nil =>
    obtain rfl := List.map_eq_nil_iff.mp h.symm
    rfl
  | cons x xs ih =>
    cases ys with
    | nil => cases h
    | cons y ys =>
      obtain ⟨hxy, hrest⟩ := List.cons.inj h
      rw [List.forall_mem_cons] at hback
      rw [List.map_cons, List.map_cons, hback.1 y hxy, ih hrest hback.2]

/-- Entries that are bound to zero stay so under new names. -/
theorem mapM_zip_renamed {value : Nat → Option Nat} {zeroIndex : Nat} {flags : List Bool}
    {xs ys : List Nat} (hzero : value zeroIndex = some zeroIndex)
    (hlength : flags.length = xs.length)
    (h : (flags.zip xs).mapM (fun (flag, i) => if flag then some i else some zeroIndex) = some xs)
    (hys : xs.mapM value = some ys) :
    (flags.zip xs).mapM (fun (flag, i) => if flag then value i else some zeroIndex) = some ys := by
  rw [mapM_eq_some_iff] at h hys ⊢
  induction xs generalizing flags ys with
  | nil =>
    obtain rfl := List.map_eq_nil_iff.mp hys.symm
    rw [List.zip_nil_right]
    rfl
  | cons x xs ih =>
    cases flags with
    | nil => cases hlength
    | cons flag flags =>
      cases ys with
      | nil => cases hys
      | cons y ys =>
        obtain ⟨hx, hrest⟩ := List.cons.inj h
        obtain ⟨hxy, hrest'⟩ := List.cons.inj hys
        have htail := ih (Nat.succ.inj hlength) hrest hrest'
        cases flag with
        | true => exact congrArg₂ List.cons hxy htail
        | false =>
          obtain rfl : zeroIndex = x := Option.some.inj hx
          exact congrArg₂ List.cons (hzero.symm.trans hxy) htail

namespace Usage

variable {value back vector vectorBack : Nat → Option Nat} {zeroIndex : Nat} {u w : Usage V}
  {action : Action V}

/-- A renamed usage can be named back. -/
theorem Renames.takenBack (h : Renames value vector u w)
    (hback : ∀ i ∈ u.reads, ∀ j, value i = some j → back j = some i)
    (hvector : ∀ v ∈ u.vector?, ∀ v', vector v = some v' → vectorBack v' = some v) :
    Renames back vectorBack w u := by
  simp only [reads, args, initials] at hback
  cases h with
  | constant v => exact .constant v
  | unary hx => exact .unary (hback _ (by simp) _ hx)
  | binary hx hy => exact .binary (hback _ (by simp) _ hx) (hback _ (by simp) _ hy)
  | discrete hx => exact .discrete (hback _ (by simp) _ hx)
  | compare hx hy => exact .compare (hback _ (by simp) _ hx) (hback _ (by simp) _ hy)
  | select hx hy ha hb =>
    exact .select (hback _ (by simp) _ hx) (hback _ (by simp) _ hy) (hback _ (by simp) _ ha)
      (hback _ (by simp) _ hb)
  | sum hadd hsub =>
    exact .sum (mapM_back hadd fun i hi => hback i (by simp [hi]))
      (mapM_back hsub fun i hi => hback i (by simp [hi]))
  | vector h => exact .vector (mapM_back h fun i hi => hback i (by simpa using hi))
  | load hw hx => exact .load (hvector _ rfl _ hw) (hback _ (by simp) _ hx)
  | store hw hx hy =>
    exact .store (hvector _ rfl _ hw) (hback _ (by simp) _ hx) (hback _ (by simp) _ hy)
  | print hx hy => exact .print (hback _ (by simp) _ hx) (hback _ (by simp) _ hy)
  | foreign h => exact .foreign (mapM_back h fun i hi => hback i (by simpa using hi))

/-- A usage that is kept as it stands is kept in the same way under a new name. -/
theorem Kept.renamed (h : Kept zeroIndex some some u action u) (hu : Renames value vector u w)
    (hzero : value zeroIndex = some zeroIndex) : Kept zeroIndex value vector u action w := by
  cases h with
  | copy => exact .copy hu
  | rebind hlength h =>
    cases hu with
    | foreign hinputs => exact .rebind hlength (mapM_zip_renamed hzero hlength h hinputs)

/-! ## Padding -/

/-- The usages from place `q` on are those from place `p` on, with constants in between that the
table back does not know. -/
inductive Pads (value back : Nat → Option Nat) :
    Place → Place → List (Usage V) → List (Usage V) → Prop
  | nil (p q : Place) : Pads value back p q [] []
  | keep {p q : Place} {u w : Usage V} {us ws : List (Usage V)} (hu : Renames value some u w)
      (hvalue : ∀ j < u.resultCount, value (p.first + j) = some (q.first + j))
      (hrest : Pads value back (p.past u) (q.past w) us ws) :
      Pads value back p q (u :: us) (w :: ws)
  | idle {p q : Place} {v : V} {us ws : List (Usage V)} (hidle : back q.first = none)
      (hrest : Pads value back p (q.past (.constant v : Usage V)) us ws) :
      Pads value back p q us (.constant v :: ws)

variable {p q : Place} {us ws : List (Usage V)}

/-- The sweep over the padded usages decides on each of the others as before, and drops what is
idle. -/
theorem Pads.exists_sweeps {r : Registry V} {options : Options} {n m : Nat}
    {behind behind' live : Live} {actions : List (Action V)} (h : Pads value back p q us ws)
    (hback : ∀ {i j}, value i = some j → back j = some i) (hzero : value zeroIndex = some zeroIndex)
    (hzeroLt : zeroIndex < n) (hmatches : Live.Matches value some n m behind behind')
    (hknown : ∀ j, behind'.values.contains j = true → ∃ i, back j = some i)
    (hsweep : Live.Sweeps r options zeroIndex behind p us live actions)
    (hkept : List.Forall₂ (fun u action => Kept zeroIndex some some u action u) us actions)
    (hfit : FitAll p.first p.vector us) (hend : us.foldl Place.past p = { first := n, vector := m })
    (hvectors : q.vector = p.vector) :
    ∃ live' actions', Live.Sweeps r options zeroIndex behind' q ws live' actions' ∧
      Live.Matches value some n m live live' ∧
      (∀ j, live'.values.contains j = true → ∃ i, back j = some i) ∧
      Selects zeroIndex back some q p ws actions' us := by
  have hinj : InjectiveBelow value n := fun i i' j _ _ hij hi'j =>
    Option.some.inj ((hback hij).symm.trans (hback hi'j))
  have hinjVector : InjectiveBelow some m := fun w w' v _ _ hw hw' =>
    Option.some.inj (hw.trans hw'.symm)
  induction h generalizing live actions with
  | nil =>
    cases hsweep
    exact ⟨behind', [], .nil _, hmatches, hknown, .nil _ _⟩
  | @idle p q v us ws hidle _ ih =>
    obtain ⟨live', actions', hrest, hmatches', hknown', hselects⟩ :=
      ih hsweep hkept hfit hend (by rw [← hvectors]; rfl)
    have hdead : live'.wants options zeroIndex q (.constant v : Usage V) = false := by
      rw [← Bool.not_eq_true]
      intro hwanted
      obtain ⟨i, hi⟩ := hknown' q.first ((Live.any_pattern_one live' q.first).symm.trans hwanted)
      cases hidle.symm.trans hi
    refine ⟨live', .drop :: actions', .cons hrest (.drop hdead), hmatches', hknown',
      .drop (fun j hj => ?_) (fun hstarts => by cases hstarts) hselects⟩
    obtain rfl := Nat.lt_one_iff.mp hj
    exact hidle
  | @keep p q u w us ws hu hvalue _ ih =>
    cases hsweep with
    | cons hrest hdecides =>
      cases hkept with
      | cons hself hkept =>
        have hpast : (q.past w).vector = (p.past u).vector := by
          rw [Place.past, Place.past, hu.startsVector_eq, hvectors]
        obtain ⟨live', actions', hrest', hmatches', hknown', hselects⟩ :=
          ih hrest hkept hfit.2 hend hpast
        rw [foldl_past, resultTotal_cons, List.countP_cons, Place.mk.injEq] at hend
        obtain ⟨before', hdecides', hbefore, hsame⟩ := hmatches'.exists_decides hinj hinjVector
          hzero hzeroLt (hself.renamed hu hzero) hdecides
          (fun i hi => Nat.lt_of_lt_of_le (hfit.1.1 i hi) (by omega))
          (fun w hw => Nat.lt_of_lt_of_le (hfit.1.2 w hw) (by omega)) (by omega) hvalue
          fun hstarts => ⟨by rw [if_pos hstarts] at hend; omega, congrArg some hvectors.symm⟩
        have hrenamed : Renames back some w u :=
          hu.takenBack (fun i _ j hij => hback hij) fun v _ v' hv => hv.symm
        refine ⟨before', _ :: actions', .cons hrest' hdecides', hbefore, fun j hj => ?_,
          .keep (hsame.renamed hrenamed (hback hzero)) (fun j hj => ?_)
            (fun _ => congrArg some hvectors) hselects⟩
        · rcases hdecides'.value_iff.mp hj with hold | ⟨-, hneed⟩
          · exact hknown' j hold
          · obtain ⟨i, -, hij⟩ := hu.exists_of_mem_reads (mem_reads_of_mem_needs hneed)
            exact ⟨i, hback hij⟩
        · rw [hu.resultCount_eq] at hj
          exact hback (hvalue j hj)

end Usage

/-! ## A selection is what is rebuilt -/

namespace Rebuild

variable {zeroIndex : Nat} {value vector : Nat → Option Nat} {p p' : Place}
  {us us' : List (Usage V)} {actions : List (Action V)} {b : Rebuild V}

/-- The tables are those of a selection, as far as they go. -/
structure Agrees (b : Rebuild V) (value vector : Nat → Option Nat) : Prop where
  value : ∀ i < b.values.size, b.value? i = value i
  vector : ∀ w < b.vectors.size, b.vector? w = vector w

theorem Agrees.entered {b' : Rebuild V} {u : Usage V} {rs : List (Option Nat)}
    {which : Option Nat} (h : b.Agrees value vector) (hb : b.Entered u rs which b')
    (hvalue : ∀ j < u.resultCount, rs[j]?.join = value (b.values.size + j))
    (hvector : u.startsVector = true → which = vector b.vectors.size) :
    b'.Agrees value vector where
  value i hi := by
    rcases Nat.lt_or_ge i b.values.size with hlt | hge
    · rw [hb.extended.value i hlt, h.value i hlt]
    · obtain ⟨j, rfl⟩ := Nat.exists_eq_add_of_le hge
      rw [hb.size_values] at hi
      rw [hb.value?_add, hvalue j (Nat.lt_of_add_lt_add_left hi)]
  vector w hw := by
    rcases Nat.lt_or_ge w b.vectors.size with hlt | hge
    · rw [hb.extended.vector w hlt, h.vector w hlt]
    · rw [hb.size_vectors] at hw
      split at hw
      · rename_i hstarts
        obtain rfl : w = b.vectors.size := by omega
        rw [hb.vector?_size hstarts, hvector hstarts]
      · omega

/-- What a selection says can be carried out, and leaves what it says. -/
theorem exists_run_of_selects (h : Usage.Selects zeroIndex value vector p p' us actions us')
    (hplace : b.place = p) (hvalues : b.tape.valueCount = p'.first)
    (hvectors : b.tape.vectorCount = p'.vector) (hzero : b.tape.zeroIndex = zeroIndex)
    (hb : b.Agrees value vector) (hfit : Usage.FitAll p.first p.vector us)
    (hfit' : Usage.FitAll p'.first p'.vector us') :
    ∃ b', b.run? (us.zip actions) = some b' ∧ b'.tape = us'.foldl Tape.push b.tape ∧
      b'.place = us.foldl Place.past p ∧ b'.Agrees value vector := by
  induction h generalizing b with
  | nil => exact ⟨b, rfl, rfl, hplace, hb⟩
  | @drop p p' u us us' actions hvalue hvector _ ih =>
    subst hplace
    have hentered := entered_dropped b u
    have htape : ((b.enterVector u none).enter (List.replicate u.resultCount none)).tape
        = b.tape := tape_enterVector b u none
    have hnone (j : Nat) (hj : j < u.resultCount) :
        (List.replicate u.resultCount (none : Option Nat))[j]?.join = none := by simp [hj]
    have hagrees := hb.entered hentered
      (fun j hj => (hnone j hj).trans (hvalue j hj).symm) fun hstarts => (hvector hstarts).symm
    obtain ⟨b', hrun, hbuilt, hend, hb'⟩ := ih hentered.place_eq (htape ▸ hvalues)
      (htape ▸ hvectors) (htape ▸ hzero) hagrees hfit.2 hfit'
    exact ⟨b', run?_cons_eq_some_iff.mpr ⟨_, .drop, hrun⟩, hbuilt.trans (by rw [htape]), hend, hb'⟩
  | @keep p p' u u' action us us' actions hu hvalue hvector _ ih =>
    subst hplace
    have hkept : Usage.Kept zeroIndex b.value? b.vector? u action u' :=
      hu.transfer (fun i hi j hij => (hb.value i (hfit.1.1 i hi)).trans hij)
        fun w hw w' hww' => (hb.vector w (hfit.1.2 w hw)).trans hww'
    have hadmits : b.tape.Admits u' := by
      show u'.Fits b.tape.valueCount b.tape.vectorCount
      rw [hvalues, hvectors]
      exact hfit'.1
    have hstep : Step b u action (b.replaced u u') := step_of_kept (hzero.symm ▸ hkept) hadmits
    have hentered := entered_replaced b u u'
    have htape : (b.replaced u u').tape = b.tape.push u' := by
      rw [replaced_eq, tape_enter, tape_enterVector, tape_pushed]
    have hnumber (j : Nat) (hj : j < u.resultCount) :
        ((List.range' b.tape.valueCount u.resultCount).map some)[j]?.join
          = some (p'.first + j) := by simp [hj, hvalues]
    have hagrees := hb.entered hentered
      (fun j hj => (hnumber j hj).trans (hvalue j hj).symm)
      fun hstarts => (congrArg some hvectors).trans (hvector hstarts).symm
    obtain ⟨b', hrun, hbuilt, hend, hb'⟩ := ih hentered.place_eq
      (by rw [htape, Tape.valueCount_push, hvalues]; rfl)
      (by rw [htape]; exact congrArg (· + _) hvectors) (by rw [htape]; exact hzero) hagrees hfit.2
      hfit'.2
    exact ⟨b', run?_cons_eq_some_iff.mpr ⟨_, hstep, hrun⟩, hbuilt.trans (by rw [htape]; rfl), hend,
      hb'⟩

end Rebuild

namespace Tape

variable [Scalar V] {t t' : Tape V} {r : Registry V} {actions : List (Action V)}
  {value vector : Nat → Option Nat}

/-- A selection of a tape is what its actions make of the tape. -/
theorem Selection.rebuild_eq (h : t.Selection (.copy :: actions) t' value vector)
    (ht : t.WellFormed) (ht' : t'.WellFormed) : t.rebuild actions = .ok t' := by
  have hzero := h.value_zero
  have husages := h.usages
  cases husages with
  | keep _ _ _ hbody =>
    have hagrees : (Rebuild.start t).Agrees value vector := by
      refine ⟨fun i hi => ?_, fun w hw => absurd hw (Nat.not_lt_zero w)⟩
      have hlt : i < t.indCount + 1 := by simpa [Rebuild.start] using hi
      rw [Rebuild.value?_start.mpr ⟨hlt, rfl⟩]
      rcases Nat.lt_succ_iff_lt_or_eq.mp hlt with hind | rfl
      · exact (h.independents i hind).symm
      · exact hzero.symm
    obtain ⟨b, hrun, hbuilt, hend, hb⟩ := Rebuild.exists_run_of_selects hbody
      (Rebuild.place_start t) (congrArg (· + 1) h.indCount_eq.symm) rfl rfl hagrees ht.body ht'.body
    have hgrows : (Tape.new t.indCount t.options).Grows b.tape := Rebuild.grows_of_run? hrun
    have hbodyEq : b.tape.body = t'.body := by
      rw [hbuilt, body_foldl_push]
      simp [Rebuild.start, Tape.new]
    have hindCount : b.tape.indCount = t'.indCount := hgrows.indCount_eq.trans h.indCount_eq.symm
    have hcount : b.tape.valueCount = t'.valueCount := by
      rw [b.tape.valueCount_eq, t'.valueCount_eq, hbodyEq, hindCount]
    have hsize : b.values.size = t.valueCount :=
      (congrArg Place.first hend).trans (congrArg Place.first t.foldl_past_usages)
    obtain ⟨ds, hds, hdeps⟩ := h.dependents
    refine rebuild_eq_ok_iff.mpr ⟨by simpa using hbody.length_eq, b, hrun, ?_⟩
    refine Rebuild.finish?_eq_some_iff.mpr ⟨ds, ?_, ?_⟩
    · rw [mapM_eq_some_iff] at hds ⊢
      rw [← hds]
      exact List.map_congr_left fun i hi => hb.value i (hsize ▸ ht.dependents i hi)
    · refine setDependents?_eq_some_iff.mpr ⟨⟨hgrows.deps_eq, fun i hi => ?_⟩, ?_⟩
      · rw [hcount]
        exact ht'.dependents i (by rwa [Tape.dependents, hdeps])
      · exact Tape.ext hindCount (hgrows.options_eq.trans h.options_eq.symm) hbodyEq hdeps.symm

/-! ## Taking the padding off -/

/-- The new tape is the old one with idle constants. One table takes the old values to the new ones,
the other one takes them back. -/
structure Pads (t s : Tape V) (value back : Nat → Option Nat) : Prop where
  indCount_eq : s.indCount = t.indCount
  options_eq : s.options = t.options
  usages : Usage.Pads value back t.firstPlace s.firstPlace t.body.toList s.body.toList
  zero : value t.zeroIndex = some t.zeroIndex
  independents : ∀ i < t.indCount, value i = some i
  back : ∀ {i j}, value i = some j → back j = some i
  dependents : ∃ ds, t.dependents.mapM value = some ds ∧ s.deps = some ds

/-- Dropping dead code takes idle constants away, if nothing was dead without them. -/
theorem KeepsAll.dropDead_of_pads {s : Tape V} {live : Live} {back : Nat → Option Nat}
    {deps : List Nat} (hall : t.KeepsAll r live actions) (ht : t.WellFormed) (hs : s.WellFormed)
    (hdeps : t.deps = some deps) (h : t.Pads s value back) : s.dropDead r = .ok t := by
  obtain ⟨ds, hds, hdeps'⟩ := h.dependents
  have hinj : InjectiveBelow value t.valueCount := fun i i' j _ _ hij hi'j =>
    Option.some.inj ((h.back hij).symm.trans (h.back hi'j))
  have hzeroIndex : s.zeroIndex = t.zeroIndex := h.indCount_eq
  have hmatches : Live.Matches value some t.valueCount t.vectorCount t.liveBehind s.liveBehind :=
    matches_liveBehind ht hinj (h.zero.trans (congrArg some hzeroIndex.symm)) hds hdeps'
  have hback (j : Nat) (hj : s.liveBehind.values.contains j = true) : ∃ i, back j = some i := by
    have hmem : j = s.zeroIndex ∨ j ∈ s.dependents := by
      simpa [liveBehind, IndexSet.contains_empty] using hj
    rcases hmem with rfl | hmem
    · exact ⟨t.zeroIndex, (congrArg back hzeroIndex).trans (h.back h.zero)⟩
    · rw [Tape.dependents, hdeps'] at hmem
      obtain ⟨i, -, hij⟩ := exists_of_mem_mapM hds hmem
      exact ⟨i, h.back hij⟩
  have hfirst : s.firstPlace.vector = t.firstPlace.vector := rfl
  obtain ⟨live', actions', hsweep, -, -, hselects⟩ := h.usages.exists_sweeps h.back h.zero
    t.zeroIndex_lt hmatches hback (Live.sweep_eq_ok_iff.mp hall.liveness) hall.kept ht.body
    t.foldl_past_usages hfirst
  rw [← hzeroIndex] at hselects
  rw [← hzeroIndex, ← h.options_eq] at hsweep
  have hselection : s.Selection (.copy :: actions') t back some := by
    refine ⟨h.indCount_eq.symm, h.options_eq.symm, ?_, fun i hi => ?_, t.dependents, ?_, ?_⟩
    · refine .keep (.copy (.constant _)) (fun j hj => ?_) (fun hstarts => by cases hstarts) hselects
      obtain rfl := Nat.lt_one_iff.mp hj
      exact (congrArg back hzeroIndex).trans (h.back h.zero)
    · exact h.back (h.independents i (h.indCount_eq ▸ hi))
    · rw [Tape.dependents, hdeps']
      exact mapM_back hds fun i _ j hij => h.back hij
    · rw [Tape.dependents, hdeps]
      rfl
  exact bind_eq_ok_iff.mpr
    ⟨_, Live.sweep_eq_ok_iff.mpr hsweep, hselection.rebuild_eq hs ht⟩

end Tape

end OpTape
