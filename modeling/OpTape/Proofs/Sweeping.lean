import OpTape.Proofs.LiveEquations
/-
  The sweep solves the liveness equations. `Decides` is the exact decision on one usage, given what
  is needed behind it (`visit_eq_ok_iff`). Reads stand in front of their usage, so what the sweep
  finds later leaves the results of a usage that was visited alone, and the decision holds of the
  sets at the end as well (`Sweeps.exists_decides`, `Sweeps.keptAt_iff`).
-/
namespace OpTape

variable {V : Type}

/-- Something of the usage is recorded. -/
def Action.isKept : Action V → Bool
  | .drop => false
  | _ => true

/-- A list of actions keeps the usage at position `k`. -/
def keptAt (actions : List (Action V)) (k : Nat) : Bool := actions[k]?.any Action.isKept

theorem keptAt_of_getElem? {actions : List (Action V)} {k : Nat} {action : Action V}
    (h : actions[k]? = some action) : keptAt actions k = action.isKept := by
  rw [keptAt, h]
  rfl

namespace Live

/-- The usage is needed by what stands behind it. -/
def wants (live : Live) (options : Options) (zeroIndex : Nat) (p : Place) : Usage V → Bool
  | .compare cmp _ _ => options.keepCompare && cmp != .always
  | .print _ _ flag _ => options.keepPrint && flag != zeroIndex
  | .vector _ => live.vectors.contains p.vector
  | .store which _ _ => live.vectors.contains which
  | u => (live.pattern p.first u.resultCount).any (·)

/-- What is needed once a usage is kept that needs all that it reads. -/
def reading (live : Live) (u : Usage V) : Live :=
  { values := live.values.insertAll u.reads
    vectors := match u with
      | .load which _ => live.vectors.insert which
      | _ => live.vectors }

/-- The decision on a usage, exactly. -/
inductive Decides (r : Registry V) (options : Options) (zeroIndex : Nat) (p : Place)
    (live : Live) : Usage V → Live → Action V → Prop
  | drop {u : Usage V} (hu : live.wants options zeroIndex p u = false) :
      Decides r options zeroIndex p live u live .drop
  | copy {u : Usage V} (hu : live.wants options zeroIndex p u = true) (hkind : u.kind.family? = none) :
      Decides r options zeroIndex p live u (live.reading u) .copy
  | rebind {family : Family} {id callId n : Nat} {inputs : List Nat} {reads : List Bool}
      (hu : (live.pattern p.first n).any (·) = true)
      (hreads : inputsRead r options family id callId (live.pattern p.first n) inputs.length
        = .ok reads) :
      Decides r options zeroIndex p live (.foreign family id callId n inputs)
        { live with values := live.values.insertAll (marked inputs reads) } (.rebind reads)

variable {r : Registry V} {options : Options} {zeroIndex : Nat} {p q : Place}
  {live before behind : Live} {u : Usage V} {us : List (Usage V)} {action : Action V}
  {actions : List (Action V)} {i k : Nat}

theorem any_pattern_iff {first n : Nat} : (live.pattern first n).any (·) = true ↔
    ∃ j < n, live.values.contains (first + j) = true := by
  simp only [pattern, List.any_map, List.any_eq_true, List.mem_range'_1, Function.comp_apply]
  constructor
  · rintro ⟨i, ⟨hge, hlt⟩, hi⟩
    obtain ⟨j, rfl⟩ := Nat.exists_eq_add_of_le hge
    exact ⟨j, Nat.lt_of_add_lt_add_left hlt, hi⟩
  · rintro ⟨j, hj, hi⟩
    exact ⟨first + j, ⟨Nat.le_add_right _ _, Nat.add_lt_add_left hj first⟩, hi⟩

theorem any_pattern_one (live : Live) (first : Nat) :
    (live.pattern first 1).any (·) = live.values.contains first := by
  simp [pattern]

/-- A usage that asks no function is kept with all that it reads, or dropped. -/
theorem visit_of_plain (hkind : u.kind.family? = none) : live.visit r options zeroIndex p u
    = .ok (if live.wants options zeroIndex p u then (live.reading u, .copy) else (live, .drop)) := by
  cases u with
  | foreign => cases hkind
  | load which x =>
    have hneeded : live.wants options zeroIndex p (.load which x : Usage V)
        = live.values.contains p.first := any_pattern_one live p.first
    rw [visit, hneeded]
    split <;> rfl
  | compare | print | vector | store => rfl
  | _ => exact congrArg (Except.ok <| live.keepIf _ ·) (any_pattern_one live p.first).symm

theorem visit_foreign {family : Family} {id callId n : Nat} {inputs : List Nat} :
    live.visit r options zeroIndex p (.foreign family id callId n inputs)
      = if (live.pattern p.first n).any (·) then do
          let reads ← inputsRead r options family id callId (live.pattern p.first n) inputs.length
          return ({ live with values := live.values.insertAll (marked inputs reads) },
            .rebind reads)
        else .ok (live, .drop) := rfl

theorem visit_eq_ok_iff : live.visit r options zeroIndex p u = .ok (before, action) ↔
    Decides r options zeroIndex p live u before action := by
  by_cases hkind : u.kind.family? = none
  · rw [visit_of_plain hkind, Except.ok.injEq]
    split
    · rename_i hwanted
      constructor
      · rintro ⟨⟩
        exact .copy hwanted hkind
      · intro h
        cases h with
        | drop hu => cases hu.symm.trans hwanted
        | copy => rfl
        | rebind => cases hkind
    · rename_i hwanted
      constructor
      · rintro ⟨⟩
        exact .drop (Bool.not_eq_true _ ▸ hwanted)
      · intro h
        cases h with
        | drop => rfl
        | copy hu => exact absurd hu hwanted
        | rebind => cases hkind
  · cases u with
    | foreign family id callId n inputs =>
      rw [visit_foreign]
      split
      · rename_i hwanted
        simp only [bind_eq_ok_iff]
        constructor
        · rintro ⟨reads, hreads, ⟨⟩⟩
          exact .rebind hwanted hreads
        · intro h
          cases h with
          | drop hu => cases hu.symm.trans hwanted
          | copy _ hplain => exact absurd hplain hkind
          | rebind _ hreads => exact ⟨_, hreads, rfl⟩
      · rename_i hwanted
        constructor
        · rintro ⟨⟩
          exact .drop (Bool.not_eq_true _ ▸ hwanted)
        · intro h
          cases h with
          | drop => rfl
          | copy _ hplain => exact absurd hplain hkind
          | rebind hu => exact absurd hu hwanted
    | _ => exact absurd rfl hkind

/-! ## The whole sweep -/

/-- A sweep that succeeds, usage by usage. -/
inductive Sweeps (r : Registry V) (options : Options) (zeroIndex : Nat) (behind : Live) :
    Place → List (Usage V) → Live → List (Action V) → Prop
  | nil (p : Place) : Sweeps r options zeroIndex behind p [] behind []
  | cons {p : Place} {u : Usage V} {us : List (Usage V)} {live before : Live} {action : Action V}
      {actions : List (Action V)} (hrest : Sweeps r options zeroIndex behind (p.past u) us live actions)
      (hu : Decides r options zeroIndex p live u before action) :
      Sweeps r options zeroIndex behind p (u :: us) before (action :: actions)

theorem sweep_eq_ok_iff : sweep r options zeroIndex behind p us = .ok (before, actions) ↔
    Sweeps r options zeroIndex behind p us before actions := by
  induction us generalizing p before actions with
  | nil =>
    constructor
    · intro h
      obtain ⟨rfl, rfl⟩ := Prod.mk.inj (Except.ok.inj h)
      exact .nil p
    · rintro ⟨⟩
      rfl
  | cons u us ih =>
    simp only [sweep, bind_eq_ok_iff]
    constructor
    · rintro ⟨⟨live, actions'⟩, hrest, ⟨live', action⟩, hvisit, h⟩
      obtain ⟨rfl, rfl⟩ := Prod.mk.inj (Except.ok.inj h)
      exact .cons (ih.mp hrest) (visit_eq_ok_iff.mp hvisit)
    · intro h
      cases h with
      | cons hrest hu => exact ⟨_, ih.mpr hrest, _, visit_eq_ok_iff.mpr hu, rfl⟩

namespace Decides

theorem isKept_eq (h : Decides r options zeroIndex p live u before action) :
    action.isKept = live.wants options zeroIndex p u := by
  cases h with
  | drop hu => exact hu.symm
  | copy hu => exact hu.symm
  | rebind hu => exact hu.symm

/-- The values needed in front of a usage. -/
theorem value_iff (h : Decides r options zeroIndex p live u before action) :
    before.values.contains i = true ↔ live.values.contains i = true ∨
      action.isKept = true ∧ i ∈ u.needs r live.values.contains p.first := by
  cases h with
  | drop => simp [Action.isKept]
  | copy _ hkind =>
    rw [Usage.needs_eq_reads r _ _ hkind]
    simp [reading, Action.isKept, or_comm]
  | rebind _ hreads =>
    obtain ⟨answer, hanswer, rfl⟩ := inputsRead_eq_ok hreads
    have hmarks := Registry.marks_of_dependence hanswer
    rw [pattern] at hmarks
    simp [Usage.needs, hmarks, Action.isKept, or_comm]

/-- The vectors needed in front of a usage. -/
theorem vector_iff (h : Decides r options zeroIndex p live u before action) {w : Nat} :
    before.vectors.contains w = true ↔ live.vectors.contains w = true ∨
      action.isKept = true ∧ ∃ index, u = .load w index := by
  cases h with
  | drop => simp [Action.isKept]
  | copy => cases u <;> simp [reading, Action.isKept, or_comm]
  | rebind => simp

/-- What a usage needs stands in front of it. -/
theorem contains_eq (h : Decides r options zeroIndex p live u before action)
    (hfits : u.Fits p.first p.vector) (hge : p.first ≤ i) :
    before.values.contains i = live.values.contains i := by
  rw [Bool.eq_iff_iff, h.value_iff, or_iff_left]
  rintro ⟨-, hmem⟩
  exact absurd (hfits.1 i (Usage.mem_reads_of_mem_needs hmem)) (Nat.not_lt_of_le hge)

end Decides

namespace Sweeps

theorem contains_of_behind (h : Sweeps r options zeroIndex behind p us before actions)
    (hi : behind.values.contains i = true) : before.values.contains i = true := by
  induction h with
  | nil => exact hi
  | cons _ hu ih => exact hu.value_iff.mpr (.inl ih)

/-- The values needed in front of the usages: those needed behind them, and what the kept ones
need. -/
theorem value_iff (h : Sweeps r options zeroIndex behind p us before actions)
    (hfit : Usage.FitAll p.first p.vector us) (i : Nat) :
    before.values.contains i = true ↔ behind.values.contains i = true ∨
      ∃ k q u, (Usage.placed p us)[k]? = some (q, u) ∧ keptAt actions k = true ∧
        i ∈ u.needs r before.values.contains q.first := by
  induction h with
  | nil => simp [Usage.placed]
  | @cons p u us live before action actions hrest hu ih =>
    have hneeds {k : Nat} {q : Place} {v : Usage V}
        (hk : (Usage.placed p (u :: us))[k]? = some (q, v)) :
        v.needs r before.values.contains q.first = v.needs r live.values.contains q.first :=
      Usage.needs_congr r fun j _ => hu.contains_eq hfit.1
        (Nat.le_trans (Usage.first_le_of_placed hk) (Nat.le_add_right _ _))
    rw [hu.value_iff, ih hfit.2, or_assoc]
    refine or_congr_right ?_
    constructor
    · rintro (⟨k, q, v, hk, hkept, hmem⟩ | ⟨hkept, hmem⟩)
      · have hk' : (Usage.placed p (u :: us))[k + 1]? = some (q, v) := hk
        exact ⟨k + 1, q, v, hk', hkept, hneeds hk' ▸ hmem⟩
      · exact ⟨0, p, u, rfl, hkept, hneeds (k := 0) rfl ▸ hmem⟩
    · rintro ⟨k, q, v, hk, hkept, hmem⟩
      rw [hneeds hk] at hmem
      cases k with
      | zero =>
        obtain ⟨rfl, rfl⟩ := Prod.mk.inj (Option.some.inj hk)
        exact .inr ⟨hkept, hmem⟩
      | succ k => exact .inl ⟨k, q, v, hk, hkept, hmem⟩

/-- The vectors needed in front of the usages: those needed behind them, and what the kept loads
read. -/
theorem vector_iff (h : Sweeps r options zeroIndex behind p us before actions) (w : Nat) :
    before.vectors.contains w = true ↔ behind.vectors.contains w = true ∨
      ∃ k q index, (Usage.placed p us)[k]? = some (q, .load w index) ∧
        keptAt actions k = true := by
  induction h with
  | nil => simp [Usage.placed]
  | @cons p u us live before action actions hrest hu ih =>
    rw [hu.vector_iff, ih, or_assoc]
    refine or_congr_right ?_
    constructor
    · rintro (⟨k, q, index, hk, hkept⟩ | ⟨hkept, index, rfl⟩)
      · exact ⟨k + 1, q, index, hk, hkept⟩
      · exact ⟨0, p, index, rfl, hkept⟩
    · rintro ⟨k, q, index, hk, hkept⟩
      cases k with
      | zero =>
        obtain ⟨rfl, rfl⟩ := Prod.mk.inj (Option.some.inj hk)
        exact .inr ⟨hkept, index, rfl⟩
      | succ k => exact .inl ⟨k, q, index, hk, hkept⟩

/-- What was decided on a usage was decided for what is needed at the end. -/
theorem exists_decides (h : Sweeps r options zeroIndex behind p us before actions)
    (hfit : Usage.FitAll p.first p.vector us) (hk : (Usage.placed p us)[k]? = some (q, u)) :
    ∃ live front action, actions[k]? = some action ∧
      Decides r options zeroIndex q live u front action ∧
      ∀ i, q.first ≤ i → live.values.contains i = before.values.contains i := by
  induction h generalizing k with
  | nil => cases hk
  | @cons p v us live before action actions hrest hv ih =>
    cases k with
    | zero =>
      obtain ⟨rfl, rfl⟩ := Prod.mk.inj (Option.some.inj hk)
      exact ⟨live, before, action, rfl, hv, fun i hi => (hv.contains_eq hfit.1 hi).symm⟩
    | succ k =>
      obtain ⟨live', front, action', haction, hu, hvalue⟩ := ih hfit.2 hk
      refine ⟨live', front, action', haction, hu, fun i hi => (hvalue i hi).trans ?_⟩
      have hk' : (Usage.placed p (v :: us))[k + 1]? = some (q, u) := hk
      have hge := Nat.le_trans (Usage.first_le_of_placed hk') hi
      exact (hv.contains_eq hfit.1 hge).symm

/-- A usage is kept where it is wanted. That nothing is needed behind the usages as a vector says
that what the sweep finds there comes from loads among them. -/
theorem keptAt_iff (h : Sweeps r options zeroIndex behind p us before actions)
    (hfit : Usage.FitAll p.first p.vector us)
    (hbehind : ∀ w, behind.vectors.contains w = false)
    (hk : (Usage.placed p us)[k]? = some (q, u)) : keptAt actions k = true ↔
      u.IsWanted options zeroIndex (Usage.placed p us) before.values.contains (keptAt actions) k
        q := by
  induction h generalizing k with
  | nil => cases hk
  | @cons p v us live before action actions hrest hv ih =>
    have hvalue (j : Nat) (_ : j < u.resultCount) :
        live.values.contains (q.first + j) = before.values.contains (q.first + j) :=
      (hv.contains_eq hfit.1
        (Nat.le_trans (Usage.first_le_of_placed hk) (Nat.le_add_right _ _))).symm
    cases k with
    | succ k =>
      refine (ih hfit.2 hk).trans (Usage.isWanted_congr hvalue fun w => ?_)
      rw [Usage.placed, Usage.loadedBehind_cons]
      rfl
    | zero =>
      obtain ⟨rfl, rfl⟩ := Prod.mk.inj (Option.some.inj hk)
      have hloaded (w : Nat) : live.vectors.contains w = true ↔ Usage.LoadedBehind
          (Usage.placed p (v :: us)) (keptAt (action :: actions)) 0 w := by
        rw [hrest.vector_iff, hbehind, Usage.placed, Usage.loadedBehind_zero_cons]
        simp
        rfl
      have hkept : keptAt (action :: actions) 0 = live.wants options zeroIndex p v := hv.isKept_eq
      rw [hkept]
      have hresults : (live.pattern p.first v.resultCount).any (·) = true ↔
          ∃ j < v.resultCount, before.values.contains (p.first + j) = true := by
        rw [any_pattern_iff]
        exact exists_congr fun j => and_congr_right fun hj => by rw [hvalue j hj]
      cases v with
      | compare | print => simp [wants, Usage.IsWanted]
      | vector => exact hloaded p.vector
      | store which => exact hloaded which
      | _ => exact hresults

end Sweeps

end Live

namespace Tape

variable [Scalar V] {t : Tape V} {r : Registry V} {live : Live} {actions : List (Action V)}

/-- The sweep of a tape, continued over the zero constant, which is always needed. -/
theorem sweeps_usages (h : t.liveness r = .ok (live, actions)) :
    Live.Sweeps r t.options t.zeroIndex t.liveBehind t.zeroPlace t.usages live
      (.copy :: actions) := by
  have hsweep := Live.sweep_eq_ok_iff.mp h
  have hzero : live.values.contains t.zeroIndex = true :=
    hsweep.contains_of_behind (by simp)
  exact .cons hsweep (.copy ((Live.any_pattern_one live _).trans hzero) rfl)

/-- A registered function that stays was asked for all its needed results. -/
theorem WellFormed.exists_answer (ht : t.WellFormed) (h : t.liveness r = .ok (live, actions))
    {k : Nat} {p : Place} {family : Family} {id callId n : Nat} {inputs : List Nat}
    (hk : t.placed[k]? = some (p, .foreign family id callId n inputs))
    (hkept : keptAt (.copy :: actions) k = true) :
    ∃ answer, r.dependence family id callId ((List.range' p.first n).map live.values.contains)
      inputs.length = .ok answer ∧ (Action.copy :: actions)[k]? = some (.rebind answer.toList) := by
  obtain ⟨live', front, action, haction, hdecides, hneeded⟩ :=
    (sweeps_usages h).exists_decides ht.fitAll_placed hk
  rw [keptAt_of_getElem? haction] at hkept
  cases hdecides with
  | drop => cases hkept
  | copy _ hkind => cases hkind
  | rebind _ hreads =>
    obtain ⟨answer, hanswer, rfl⟩ := Live.inputsRead_eq_ok hreads
    have hpattern : live'.pattern p.first n = (List.range' p.first n).map live.values.contains :=
      List.map_congr_left fun i hi => hneeded i (List.mem_range'_1.mp hi).1
    exact ⟨answer, hpattern ▸ hanswer, haction⟩

/-- The sweep over a tape in order solves the equations. -/
theorem WellFormed.liveEquations (ht : t.WellFormed) (h : t.liveness r = .ok (live, actions)) :
    t.LiveEquations r live.values.contains (keptAt (.copy :: actions)) where
  values i _ := by
    rw [(sweeps_usages h).value_iff ht.fitAll_placed, liveBehind]
    simp [IndexSet.contains_empty, or_comm, or_assoc, placed]
  zero := rfl
  usages _ hk := (sweeps_usages h).keptAt_iff ht.fitAll_placed (fun w => IndexSet.contains_empty w) hk

end Tape

end OpTape
