import OpTape.Proofs.Equations
import OpTape.Proofs.Representation
/-
  An evaluation up to one of its usages. `Tape.advance` evaluates the first usages of a tape in
  place; it goes one usage further by one step (`stateAt_succ`), so what holds of the state behind
  `k` usages is shown by induction on `k`. Values are never taken back, so what the evaluation
  leaves behind begins with the values of every state on its way (`grows_of_stateAt`), and an
  evaluation that fails has come to a usage that fails (`exists_of_outcome_error`).
-/
namespace OpTape

variable {V : Type} [Scalar V]

namespace State

variable {r : Registry V} {s s' : State V} {noted : List (Usage V × (List V → String))}

theorem run_append (r : Registry V) (s : State V)
    (noted noted' : List (Usage V × (List V → String))) :
    s.run r (noted ++ noted') = s.run r noted >>= fun s' => s'.run r noted' := by
  induction noted generalizing s with
  | nil => rfl
  | cons step noted ih =>
    rw [List.cons_append, run, run, bind_assoc]
    simp only [ih]

/-- A run only adds values. -/
theorem grows_of_run (h : s.run r noted = .ok s') : ∃ more, s'.values = s.values ++ more := by
  induction noted generalizing s with
  | nil =>
    obtain rfl := Except.ok.inj h
    exact ⟨#[], by simp⟩
  | cons step noted ih =>
    obtain ⟨s₁, hstep, hrest⟩ := bind_eq_ok_iff.mp h
    obtain ⟨e, -, rfl⟩ := step_eq_ok_iff.mp hstep
    obtain ⟨more, hmore⟩ := ih hrest
    refine ⟨e.appended.toArray ++ more, ?_⟩
    rw [hmore, ← Array.append_assoc]
    exact congrArg (· ++ more) (values_apply s e)

theorem values_spoil (s : State V) (u : Usage V) :
    ∃ more, (s.spoil u).values = s.values ++ more := by
  cases u with
  | foreign family id callId n inputs => exact ⟨_, append_list_eq _ _⟩
  | _ => exact ⟨#[], (Array.append_empty).symm⟩

theorem size_vectors_of_run (h : s.run r noted = .ok s') : s'.vectors.size
    = s.vectors.size + (noted.map Prod.fst).countP Usage.startsVector := by
  induction noted generalizing s with
  | nil =>
    obtain rfl := Except.ok.inj h
    rfl
  | cons step noted ih =>
    obtain ⟨s₁, hstep, hrest⟩ := bind_eq_ok_iff.mp h
    rw [ih hrest, (counts_of_step hstep).2, List.map_cons, List.countP_cons]
    omega

/-- A run that fails has come to a usage that fails. -/
theorem exists_of_run_error {halt : Halt V} (h : s.run r noted = .error halt) :
    ∃ k u note s', noted[k]? = some (u, note) ∧ s.run r (noted.take k) = .ok s' ∧
      u.effect r s'.values s'.vectors = .error halt.fault ∧ halt.state = s'.spoil u := by
  induction noted generalizing s with
  | nil => cases h
  | cons step noted ih =>
    obtain ⟨u, note⟩ := step
    rcases bind_eq_error_iff.mp h with hstep | ⟨s₁, hstep, hrest⟩
    · cases heffect : u.effect r s.values s.vectors with
      | ok e =>
        rw [State.step, heffect] at hstep
        cases hstep
      | error fault =>
        rw [State.step, heffect] at hstep
        obtain rfl := Except.error.inj hstep
        exact ⟨0, u, note, s, rfl, rfl, heffect, rfl⟩
    · obtain ⟨k, v, note', s', hk, hrun, heffect, hstate⟩ := ih hrest
      refine ⟨k + 1, v, note', s', hk, ?_, heffect, hstate⟩
      exact bind_eq_ok_iff.mpr ⟨s₁, hstep, hrun⟩

end State

/-! ## Usages and their slots -/

namespace Packed

omit [Scalar V] in
/-- The slot of a usage is found at the position of the usage. -/
theorem getElem?_slots (p : Packed V) (first : Nat) {us : List (Usage V)} {k : Nat} {u : Usage V}
    (hk : us[k]? = some u) : (p.slots first us)[k]?
      = some (((us.take k).foldl push p).slot (first + Usage.resultTotal (us.take k)) u) := by
  induction us generalizing p first k with
  | nil => cases hk
  | cons v us ih =>
    cases k with
    | zero =>
      obtain rfl := Option.some.inj hk
      rfl
    | succ k =>
      rw [slots, List.getElem?_cons_succ, ih _ _ hk, List.take_succ_cons, List.foldl_cons,
        Usage.resultTotal_cons, Nat.add_assoc]

/-- The notes of a trace are written from what stands at the slots. -/
theorem annotate_eq {p q : Packed V} {us : List (Usage V)} (h : (us.foldl push p).Begins q)
    (first : Nat) : Trace.annotate first p us = ((p.slots first us).zip us).map fun (s, u) =>
      (u, Trace.usageLine s.firstResult (q.slotArgs s) u) := by
  induction us generalizing p first with
  | nil => rfl
  | cons u us ih =>
    have hu : (p.push u).Begins q := (begins_foldl _ us).trans h
    have hslice : q.slotArgs (p.slot first u) = p.slice u := slotArgs_slot hu first
    rw [Trace.annotate, ih h, slots, List.zip_cons_cons, List.map_cons]
    simp only [hslice]
    rfl

end Packed

namespace Tape

/-- The usages of a tape with their slots. -/
def slotted (t : Tape V) : List (Slot × Usage V) := t.slots.zip t.usages

/-- What stands behind a usage in the output, written from its results: its line in a traced
evaluation, else nothing. -/
def note (t : Tape V) (traced : Bool) (s : Slot) (u : Usage V) (results : List V) : String :=
  if traced then Trace.usageLine s.firstResult (t.pack.slotArgs s) u results else ""

variable {t : Tape V} {k : Nat} {slot : Slot} {u : Usage V}

theorem map_snd_slotted (t : Tape V) : t.slotted.map Prod.snd = t.usages :=
  List.map_snd_zip (Nat.le_of_eq (Packed.length_slots _ _ _).symm)

theorem length_slotted (t : Tape V) : t.slotted.length = t.usages.length := by
  rw [← map_snd_slotted, List.length_map]

theorem noted_eq (t : Tape V) (traced : Bool) :
    t.noted traced = t.slotted.map fun (s, u) => (u, t.note traced s u) := by
  cases traced with
  | true => exact Packed.annotate_eq (.refl t.pack) t.indCount
  | false =>
    rw [noted, if_neg Bool.false_ne_true, ← map_snd_slotted, List.map_map]
    rfl

theorem getElem?_usages (hk : t.slotted[k]? = some (slot, u)) : t.usages[k]? = some u := by
  rw [← map_snd_slotted, List.getElem?_map, hk]
  rfl

theorem getElem?_slotted (hk : t.usages[k]? = some u) : t.slotted[k]?
    = some ((Packed.ofUsages (t.usages.take k)).slot
      (t.indCount + Usage.resultTotal (t.usages.take k)) u, u) :=
  List.getElem?_zip_eq_some.mpr ⟨Packed.getElem?_slots {} t.indCount hk, hk⟩

theorem slot_eq_of_slotted (hk : t.slotted[k]? = some (slot, u)) :
    slot = (Packed.ofUsages (t.usages.take k)).slot
      (t.indCount + Usage.resultTotal (t.usages.take k)) u := by
  rw [getElem?_slotted (getElem?_usages hk)] at hk
  exact (Prod.mk.inj (Option.some.inj hk)).1.symm

theorem lt_of_slotted (hk : t.slotted[k]? = some (slot, u)) : k < t.usages.length :=
  (List.getElem?_eq_some_iff.mp (getElem?_usages hk)).1

theorem getElem?_noted (hk : t.slotted[k]? = some (slot, u)) (traced : Bool) :
    (t.noted traced)[k]? = some (u, t.note traced slot u) := by
  rw [noted_eq, List.getElem?_map, hk]
  rfl

theorem take_append_usage (hk : t.usages[k]? = some u) :
    t.usages = t.usages.take k ++ u :: t.usages.drop (k + 1) := by
  obtain ⟨hlt, rfl⟩ := List.getElem?_eq_some_iff.mp hk
  rw [← List.drop_eq_getElem_cons hlt, List.take_append_drop]

/-- A usage with its slot stands behind those before it. -/
theorem WellFormed.stands_of_slotted (ht : t.WellFormed)
    (hk : t.slotted[k]? = some (slot, u)) : t.Stands (t.usages.take k) u slot := by
  have husages := getElem?_usages hk
  have hfit := ht.fitAll_usages
  rw [take_append_usage husages, Usage.fitAll_append, Nat.zero_add] at hfit
  have hpack : t.pack = (t.usages.drop (k + 1)).foldl Packed.push
      ((Packed.ofUsages (t.usages.take k)).push u) := by
    have hfold := congrArg Packed.ofUsages (take_append_usage husages)
    rwa [Packed.ofUsages, Packed.ofUsages, List.foldl_append] at hfold
  exact ⟨slot_eq_of_slotted hk, hpack ▸ Packed.begins_foldl _ _, hfit.2.1⟩

/-! ## The states on the way -/

/-- The state behind the first `n` usages of an evaluation in place. -/
def advance (t : Tape V) (r : Registry V) (traced : Bool) (initial : Array V) (n : Nat) :
    Except (Halt V) (State V) :=
  State.runAt r { values := initial, out := t.heading traced initial } t.indCount
    ((t.noted traced).take n)

/-- The same state with the values so far only. -/
def stateAt (t : Tape V) (r : Registry V) (traced : Bool) (initial : Array V) (n : Nat) :
    Except (Halt V) (State V) :=
  (t.firstState traced initial).run r ((t.noted traced).take n)

variable {r : Registry V} {traced : Bool} {initial : Array V} {s s' : State V}

/-- An evaluation goes one usage further by a step. -/
theorem stateAt_succ (hk : t.slotted[k]? = some (slot, u)) : t.stateAt r traced initial (k + 1)
    = t.stateAt r traced initial k >>= fun s => s.step r u (t.note traced slot u) := by
  have hstep (s : State V) : s.run r [(u, t.note traced slot u)]
      = s.step r u (t.note traced slot u) := by
    rw [State.run]
    cases s.step r u (t.note traced slot u) <;> rfl
  rw [stateAt, List.take_add_one, getElem?_noted hk, State.run_append]
  simp only [Option.toList_some, hstep]
  rfl

theorem stateAt_succ_eq_ok_iff (hk : t.slotted[k]? = some (slot, u)) :
    t.stateAt r traced initial (k + 1) = .ok s' ↔ ∃ s e, t.stateAt r traced initial k = .ok s ∧
      u.effect r s.values s.vectors = .ok e ∧
      (s.apply e).write (t.note traced slot u e.appended) = s' := by
  rw [stateAt_succ hk, bind_eq_ok_iff]
  simp only [State.step_eq_ok_iff]
  constructor
  · rintro ⟨s, hs, e, he, heq⟩
    exact ⟨s, e, hs, he, heq⟩
  · rintro ⟨s, e, hs, he, heq⟩
    exact ⟨s, hs, e, he, heq⟩

/-- At a usage there are as many values and vectors as the usages before it bring. -/
theorem counts_of_stateAt (hsize : initial.size = t.valueCount)
    (hk : t.slotted[k]? = some (slot, u)) (hs : t.stateAt r traced initial k = .ok s) :
    s.values.size = slot.firstResult ∧
      s.vectors.size = (t.usages.take k).countP Usage.startsVector := by
  obtain rfl := slot_eq_of_slotted hk
  have hnoted : ((t.noted traced).take k).map Prod.fst = t.usages.take k := by
    rw [List.map_take, map_fst_noted]
  have hvalues := State.size_of_run hs
  have hvectors := State.size_vectors_of_run hs
  rw [hnoted] at hvalues hvectors
  rw [size_firstState traced hsize] at hvalues
  exact ⟨hvalues, hvectors.trans (Nat.zero_add _)⟩

theorem WellFormed.fits_of_stateAt (ht : t.WellFormed) (hsize : initial.size = t.valueCount)
    (hk : t.slotted[k]? = some (slot, u)) (hs : t.stateAt r traced initial k = .ok s) :
    u.Fits s.values.size s.vectors.size := by
  obtain ⟨hvalues, hvectors⟩ := counts_of_stateAt hsize hk hs
  have hstands := ht.stands_of_slotted hk
  have hfits := hstands.fits
  rw [hvalues, hvectors, hstands.eq]
  exact hfits

/-- In place, what the caller left stands behind the values so far. -/
theorem WellFormed.advance_eq (ht : t.WellFormed) (r : Registry V) (traced : Bool)
    (hsize : initial.size = t.valueCount) (n : Nat) : t.advance r traced initial n
      = ((t.stateAt r traced initial n).map (·.inPlace initial)).mapError
        (·.inPlace initial) := by
  have hcount := resultTotal_usages t
  have hstart := size_firstState traced hsize
  have hplace : (t.firstState traced initial).inPlace initial
      = { values := initial, out := t.heading traced initial } :=
    State.inPlace_start (by omega) _
  have hsplit := List.take_append_drop n (t.noted traced)
  have hfit := ht.fitAll_noted traced hsize
  have htotal := congrArg (fun l => Usage.resultTotal (l.map Prod.fst)) hsplit
  rw [← hsplit, List.map_append, Usage.fitAll_append] at hfit
  simp only [List.map_append, Usage.resultTotal_append, map_fst_noted] at htotal
  have hroom : (t.firstState traced initial).values.size
      + Usage.resultTotal (((t.noted traced).take n).map Prod.fst) ≤ initial.size := by omega
  have hrun := State.runAt_inPlace (r := r) hfit.1 hroom
  rwa [hplace, hstart] at hrun

theorem WellFormed.advance_eq_ok_iff (ht : t.WellFormed) (hsize : initial.size = t.valueCount)
    {n : Nat} : t.advance r traced initial n = .ok s' ↔
      ∃ s, t.stateAt r traced initial n = .ok s ∧ s.inPlace initial = s' := by
  rw [ht.advance_eq r traced hsize n, mapError_eq_ok_iff]
  exact map_eq_ok_iff

/-! ## What an evaluation leaves behind -/

theorem WellFormed.evaluateInPlace_eq_leave (ht : t.WellFormed) (r : Registry V) (traced : Bool)
    (hsize : initial.size = t.valueCount) : t.evaluateInPlace r traced initial
      = t.leave traced initial ((t.firstState traced initial).run r (t.noted traced)) := by
  rw [ht.evaluateInPlace_eq, evaluate_eq r traced hsize]

theorem values_leave (t : Tape V) (traced : Bool) (initial : Array V) (s : State V) :
    (t.leave traced initial (.ok s)).values = s.values := by
  simp only [leave]
  cases t.dependents.mapM (entry s.values) <;> rfl

/-- The values of every state on the way are there in the end. -/
theorem WellFormed.grows_of_stateAt (ht : t.WellFormed) (hsize : initial.size = t.valueCount)
    (hs : t.stateAt r traced initial k = .ok s) :
    ∃ more, (t.evaluateInPlace r traced initial).values = s.values ++ more := by
  have hrun : (t.firstState traced initial).run r (t.noted traced)
      = s.run r ((t.noted traced).drop k) := by
    rw [← List.take_append_drop k (t.noted traced), State.run_append]
    show t.stateAt r traced initial k >>= _ = _
    rw [hs, List.take_append_drop]
    rfl
  rw [ht.evaluateInPlace_eq_leave r traced hsize, hrun]
  cases hrest : s.run r ((t.noted traced).drop k) with
  | ok s' =>
    rw [values_leave]
    exact State.grows_of_run hrest
  | error halt =>
    obtain ⟨_, _, _, s', -, hrun', -, hstate⟩ := State.exists_of_run_error hrest
    obtain ⟨more, hmore⟩ := State.grows_of_run hrun'
    obtain ⟨more', hmore'⟩ := State.values_spoil s' _
    refine ⟨more ++ more' ++ initial.extract halt.state.values.size initial.size, ?_⟩
    rw [leave, hstate, hmore', hmore]
    simp only [Array.append_assoc]

/-- The independents stay as they were. -/
theorem WellFormed.extract_independents (ht : t.WellFormed) (r : Registry V) (traced : Bool)
    (hsize : initial.size = t.valueCount) :
    (t.evaluateInPlace r traced initial).values.extract 0 t.indCount
      = initial.extract 0 t.indCount := by
  have hstart : t.stateAt r traced initial 0 = .ok (t.firstState traced initial) := rfl
  obtain ⟨more, hmore⟩ := ht.grows_of_stateAt hsize hstart
  have hcount : (initial.extract 0 t.indCount).size = t.indCount := size_firstState traced hsize
  have hmore : (t.evaluateInPlace r traced initial).values
      = initial.extract 0 t.indCount ++ more := hmore
  have hall : ((t.evaluateInPlace r traced initial).values.extract 0
      (initial.extract 0 t.indCount).size) = initial.extract 0 t.indCount := by
    rw [hmore, Array.extract_append_left, Array.extract_size]
  rwa [hcount] at hall

/-- A usage that fails ends the evaluation. -/
theorem WellFormed.evaluateInPlace_of_effect_error (ht : t.WellFormed)
    (hsize : initial.size = t.valueCount) (hk : t.slotted[k]? = some (slot, u))
    (hs : t.stateAt r traced initial k = .ok s) {fault : Fault V}
    (hfault : u.effect r s.values s.vectors = .error fault) :
    t.evaluateInPlace r traced initial
      = { outcome := .error fault
          values := (s.spoil u).values
            ++ initial.extract (s.spoil u).values.size initial.size
          out := s.out } := by
  have hnoted := List.take_append_drop (k + 1) (t.noted traced)
  have hstep : t.stateAt r traced initial (k + 1) = .error ⟨fault, s.spoil u⟩ := by
    rw [stateAt_succ hk, hs]
    show s.step r u _ = _
    rw [State.step, hfault]
  have hrun : (t.firstState traced initial).run r (t.noted traced)
      = .error ⟨fault, s.spoil u⟩ := by
    rw [← hnoted, State.run_append]
    show t.stateAt r traced initial (k + 1) >>= _ = _
    rw [hstep]
    rfl
  rw [ht.evaluateInPlace_eq_leave r traced hsize, hrun, leave, State.out_spoil]

omit [Scalar V] in
/-- The dependents can be read when all usages were evaluated. -/
theorem WellFormed.exists_dependents (ht : t.WellFormed) {values : Array V}
    (hvalues : values.size = t.valueCount) :
    ∃ ds, t.dependents.mapM (entry values) = (.ok ds : Except (Fault V) (List V)) := by
  refine exists_mapM_ok fun i hi => ?_
  have hlt : i < values.size := hvalues ▸ ht.dependents i hi
  exact ⟨values[i], entry_eq_ok_iff.mpr (Array.getElem?_eq_getElem hlt)⟩

/-- An evaluation that fails has come to a usage that fails. -/
theorem WellFormed.exists_of_outcome_error (ht : t.WellFormed)
    (hsize : initial.size = t.valueCount) {fault : Fault V}
    (h : (t.evaluateInPlace r traced initial).outcome = .error fault) :
    ∃ k slot u s, t.slotted[k]? = some (slot, u) ∧ t.stateAt r traced initial k = .ok s ∧
      u.effect r s.values s.vectors = .error fault := by
  rw [ht.evaluateInPlace_eq_leave r traced hsize] at h
  cases hrun : (t.firstState traced initial).run r (t.noted traced) with
  | ok s =>
    have hlast := State.size_of_run hrun
    rw [map_fst_noted, size_firstState traced hsize, resultTotal_usages] at hlast
    obtain ⟨ds, hds⟩ := ht.exists_dependents hlast
    rw [hrun, leave, hds] at h
    cases h
  | error halt =>
    obtain ⟨k, u, note, s, hk, hs, heffect, -⟩ := State.exists_of_run_error hrun
    rw [hrun] at h
    obtain rfl := Except.error.inj h
    rw [noted_eq, List.getElem?_map, Option.map_eq_some_iff] at hk
    obtain ⟨⟨slot, v⟩, hk, heq⟩ := hk
    obtain ⟨rfl, -⟩ := Prod.mk.inj heq
    exact ⟨k, slot, v, s, hk, hs, heffect⟩

end Tape

end OpTape
