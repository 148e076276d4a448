import OpTape.Proofs.CrossCheck
import OpTape.Proofs.Keeping
/-
  Dropping dead code succeeds. The sweep fails only where a registered function does not say what
  it reads. When it has decided, every action can be carried out: what a kept usage reads is
  needed in front of it, and what is needed is never dropped (`Rebuild.Carries`), because a usage
  that goes makes nothing available that is needed behind it.
-/
namespace OpTape

variable {V : Type}

namespace Rebuild

variable {b : Rebuild V} {u : Usage V}

/-- Where the sweep stood at the next old usage. -/
def place (b : Rebuild V) : Place := { first := b.values.size, vector := b.vectors.size }

/-- What is needed of the old values and vectors so far is on the new tape. -/
structure Carries (b : Rebuild V) (live : Live) : Prop where
  value : ∀ i < b.values.size, live.values.contains i = true → ∃ j, b.value? i = some j
  vector : ∀ w < b.vectors.size, live.vectors.contains w = true → ∃ w', b.vector? w = some w'

/-- The tables behind a usage whose results and whose vector were entered. -/
structure Entered (b : Rebuild V) (u : Usage V) (rs : List (Option Nat)) (which : Option Nat)
    (b' : Rebuild V) : Prop where
  length : rs.length = u.resultCount
  values : b'.values = b.values ++ rs.toArray
  vectors : b'.vectors = if u.startsVector then b.vectors.push which else b.vectors

theorem entered_dropped (b : Rebuild V) (u : Usage V) :
    b.Entered u (List.replicate u.resultCount none) none
      ((b.enterVector u none).enter (List.replicate u.resultCount none)) := by
  constructor <;> simp

theorem entered_replaced (b : Rebuild V) (u new : Usage V) :
    b.Entered u ((List.range' b.tape.valueCount u.resultCount).map some)
      (some b.tape.vectorCount) (b.replaced u new) := by
  constructor <;> simp [replaced]

namespace Entered

variable {b' : Rebuild V} {rs : List (Option Nat)} {which : Option Nat}

theorem size_values (h : b.Entered u rs which b') :
    b'.values.size = b.values.size + u.resultCount := by
  simp [h.values, h.length]

theorem size_vectors (h : b.Entered u rs which b') :
    b'.vectors.size = b.vectors.size + if u.startsVector then 1 else 0 := by
  rw [h.vectors]
  split <;> simp

theorem place_eq (h : b.Entered u rs which b') : b'.place = b.place.past u := by
  rw [place, h.size_values, h.size_vectors]
  rfl

/-- What is needed behind the usage is carried, if that was needed in front of it or was entered
now. -/
theorem carries (h : b.Entered u rs which b') {before behind : Live} (hb : b.Carries before)
    (hvalues : ∀ i, behind.values.contains i → before.values.contains i)
    (hvectors : ∀ w, behind.vectors.contains w → before.vectors.contains w)
    (hrs : ∀ k < u.resultCount, behind.values.contains (b.values.size + k) →
      ∃ j, rs[k]? = some (some j))
    (hwhich : u.startsVector = true → behind.vectors.contains b.vectors.size →
      ∃ w', which = some w') : b'.Carries behind := by
  refine ⟨fun i hi hlive => ?_, fun w hw hlive => ?_⟩
  · simp only [value?_eq_some_iff, h.values]
    by_cases hlt : i < b.values.size
    · obtain ⟨j, hj⟩ := hb.value i hlt (hvalues i hlive)
      exact ⟨j, by rw [Array.getElem?_append_left hlt, value?_eq_some_iff.mp hj]⟩
    · rw [h.size_values] at hi
      obtain ⟨k, rfl⟩ : ∃ k, i = b.values.size + k := ⟨i - b.values.size, by omega⟩
      obtain ⟨j, hj⟩ := hrs k (by omega) hlive
      refine ⟨j, ?_⟩
      rw [Array.getElem?_append_right (by omega), Nat.add_sub_cancel_left]
      exact (List.getElem?_toArray ..).trans hj
  · simp only [vector?_eq_some_iff, h.vectors]
    by_cases hlt : w < b.vectors.size
    · obtain ⟨w', hw'⟩ := hb.vector w hlt (hvectors w hlive)
      refine ⟨w', ?_⟩
      split
      · rw [Array.getElem?_push_lt hlt, ← Array.getElem?_eq_getElem hlt, vector?_eq_some_iff.mp hw']
      · exact vector?_eq_some_iff.mp hw'
    · rw [h.size_vectors] at hw
      cases hstarts : u.startsVector with
      | false =>
        rw [hstarts] at hw
        exact absurd hw hlt
      | true =>
        rw [hstarts, if_pos rfl] at hw
        obtain rfl : w = b.vectors.size := by omega
        obtain ⟨w', rfl⟩ := hwhich hstarts hlive
        exact ⟨w', by simp⟩

end Entered

theorem Carries.dropped {live : Live} (h : b.Carries live) (hspares : live.Spares b.place u) :
    ((b.enterVector u none).enter (List.replicate u.resultCount none)).Carries live := by
  refine (entered_dropped b u).carries h (fun _ hi => hi) (fun _ hw => hw)
    (fun k hk hlive => ?_) fun hstarts hlive => ?_
  · exact absurd (hspares.values k hk) (Bool.not_eq_false _ ▸ hlive)
  · exact absurd (hspares.vectors hstarts) (Bool.not_eq_false _ ▸ hlive)

theorem Carries.replaced {before behind : Live} (h : b.Carries before)
    (hvalues : ∀ i, behind.values.contains i → before.values.contains i)
    (hvectors : ∀ w, behind.vectors.contains w → before.vectors.contains w) (new : Usage V) :
    (b.replaced u new).Carries behind := by
  refine (entered_replaced b u new).carries h hvalues hvectors (fun k hk _ => ?_) fun _ _ => ⟨_, rfl⟩
  exact ⟨b.tape.valueCount + k, by simp [hk]⟩

theorem place_start (t : Tape V) : (start t).place = t.firstPlace := by
  simp [place, start, Tape.firstPlace]

theorem carries_start (t : Tape V) (live : Live) : (start t).Carries live where
  value i hi _ := total_start t i hi
  vector w hw _ := by simp [start] at hw

/-- A registered function can be carried over when the inputs that it reads are there. -/
theorem exists_carriedNeeded (hb : b.Bounded) {family : Family} {id callId n : Nat}
    {inputs : List Nat} {reads : List Bool} (hlength : reads.length = inputs.length)
    (hvalue : ∀ i ∈ Live.marked inputs reads, ∃ j, b.value? i = some j) :
    ∃ new, b.carryNeeded? reads (.foreign family id callId n inputs) = some new ∧
      b.tape.Admits new := by
  obtain ⟨inputs', hinputs⟩ : ∃ inputs',
      (reads.zip inputs).mapM (fun pair => b.input? pair.1 pair.2) = some inputs' := by
    refine exists_mapM_some fun pair hmem => ?_
    obtain ⟨flag, i⟩ := pair
    cases flag with
    | false => exact ⟨_, rfl⟩
    | true =>
      obtain ⟨k, hk⟩ := List.mem_iff_getElem?.mp hmem
      obtain ⟨hflag, hi⟩ := List.getElem?_zip_eq_some.mp hk
      have hzip : (inputs.zip reads)[k]? = some (i, true) :=
        List.getElem?_zip_eq_some.mpr ⟨hi, hflag⟩
      exact hvalue i (List.mem_filterMap.mpr ⟨_, List.mem_of_getElem? hzip, rfl⟩)
  refine ⟨.foreign family id callId n inputs',
    carryNeeded?_foreign_eq_some_iff.mpr ⟨hlength, inputs', hinputs, rfl⟩, fun j hj => ?_,
    fun w hw => by cases hw⟩
  have hmem : j ∈ inputs' := by simpa [Usage.reads, Usage.args, Usage.initials] using hj
  obtain ⟨⟨flag, i⟩, -, hij⟩ := exists_of_mem_mapM hinputs hmem
  cases flag with
  | false =>
    obtain rfl := Option.some.inj hij
    have hcount := b.tape.valueCount_eq
    show b.tape.indCount < b.tape.valueCount
    omega
  | true => exact hb.value hij

end Rebuild

namespace Live

variable {r : Registry V} {options : Options} {zeroIndex : Nat}

/-- The sweep succeeds when every function on the tape says what it reads. -/
theorem exists_sweep {us : List (Usage V)} (behind : Live) (p : Place)
    (hreads : ∀ family id callId n inputs, .foreign family id callId n inputs ∈ us →
      ∀ needed : List Bool, needed.length = n →
        ∃ reads, inputsRead r options family id callId needed inputs.length = .ok reads) :
    ∃ result, sweep r options zeroIndex behind p us = .ok result := by
  cases h : sweep r options zeroIndex behind p us with
  | ok result => exact ⟨result, rfl⟩
  | error fault =>
    obtain ⟨before, u, rest, live, actions, rfl, -, hvisit⟩ := visit_of_sweep h
    obtain ⟨family, id, callId, n, inputs, rfl, hfault⟩ := inputsRead_of_visit hvisit
    obtain ⟨reads, hok⟩ := hreads family id callId n inputs (by simp) _ (length_pattern live _ n)
    cases hok.symm.trans hfault

theorem mem_marked {inputs : List Nat} {reads : List Bool} {i : Nat} :
    i ∈ marked inputs reads ↔ ∃ k : Nat, inputs[k]? = some i ∧ reads[k]? = some true := by
  rw [marked, List.mem_filterMap]
  constructor
  · rintro ⟨⟨i', isRead⟩, hmem, h⟩
    obtain ⟨k, hk⟩ := List.mem_iff_getElem?.mp hmem
    obtain ⟨hinput, hread⟩ := List.getElem?_zip_eq_some.mp hk
    cases isRead with
    | false => cases h
    | true =>
      obtain rfl := Option.some.inj h
      exact ⟨k, hinput, hread⟩
  · rintro ⟨k, hinput, hread⟩
    have hk : (inputs.zip reads)[k]? = some (i, true) :=
      List.getElem?_zip_eq_some.mpr ⟨hinput, hread⟩
    exact ⟨(i, true), List.mem_of_getElem? hk, rfl⟩

theorem mem_of_marked {inputs : List Nat} {reads : List Bool} {i : Nat}
    (h : i ∈ marked inputs reads) : i ∈ inputs := by
  obtain ⟨k, hinput, -⟩ := mem_marked.mp h
  exact List.mem_of_getElem? hinput

/-- The invariant that lets the pass carry out every action. -/
structure Droppable (r : Registry V) (options : Options) (zeroIndex count : Nat) (behind : Live)
    (plan : List (Usage V × Action V)) (b : Rebuild V) : Prop where
  size : b.values.size + Usage.resultTotal (plan.map Prod.fst) = count
  fit : Usage.FitAll b.values.size b.vectors.size (plan.map Prod.fst)
  swept : ∃ live, sweep r options zeroIndex behind b.place (plan.map Prod.fst)
      = .ok (live, plan.map Prod.snd) ∧ b.Carries live

theorem Droppable.step {count : Nat} {behind : Live} {u : Usage V} {action : Action V}
    {plan : List (Usage V × Action V)} {b : Rebuild V}
    (h : Droppable r options zeroIndex count behind ((u, action) :: plan) b) (hb : b.Bounded) :
    ∃ b', Rebuild.Step b u action b' ∧ Droppable r options zeroIndex count behind plan b' := by
  obtain ⟨before, hsweep, hcarries⟩ := h.swept
  obtain ⟨live, hrest, hvisit⟩ := sweep_cons_eq_ok hsweep
  have hsize : b.values.size + Usage.resultTotal (u :: plan.map Prod.fst) = count := h.size
  rw [Usage.resultTotal_cons] at hsize
  have hdone {b' : Rebuild V} {rs : List (Option Nat)} {which : Option Nat}
      (hstep : Rebuild.Step b u action b') (hentered : b.Entered u rs which b')
      (hcarries' : b'.Carries live) :
      ∃ b', Rebuild.Step b u action b' ∧ Droppable r options zeroIndex count behind plan b' := by
    refine ⟨b', hstep, ?_, ?_, live, hentered.place_eq ▸ hrest, hcarries'⟩
    · rw [hentered.size_values]
      omega
    · rw [hentered.size_values, hentered.size_vectors]
      exact h.fit.2
  cases visited_of_visit hvisit with
  | drop _ hspares => exact hdone .drop (Rebuild.entered_dropped b u) (hcarries.dropped hspares)
  | copy hkeeps =>
    obtain ⟨new, hnew, hadmits⟩ := Rebuild.exists_carried hb
      (fun i hi => hcarries.value i (h.fit.1.1 i hi) (hkeeps.reads i hi))
      fun w hw => hcarries.vector w (h.fit.1.2 w hw) (hkeeps.vector w hw)
    exact hdone (.copy hnew hadmits) (Rebuild.entered_replaced b u new)
      (hcarries.replaced hkeeps.values hkeeps.vectors new)
  | @rebind family id callId n inputs reads hneeded hreads =>
    obtain ⟨answer, -, rfl⟩ := inputsRead_eq_ok hreads
    have hvalue (i : Nat) (hi : i ∈ marked inputs answer.toList) : ∃ j, b.value? i = some j :=
      hcarries.value i (h.fit.1.1 i (List.mem_append_left _ (mem_of_marked hi))) (by simp [hi])
    obtain ⟨new, hnew, hadmits⟩ : ∃ new,
        b.carryNeeded? answer.toList (.foreign family id callId n inputs) = some new ∧
          b.tape.Admits new :=
      Rebuild.exists_carriedNeeded hb answer.length_toList hvalue
    have hkept (i : Nat) (hi : live.values.contains i = true) :
        (live.values.insertAll (marked inputs answer.toList)).contains i = true := by
      rw [IndexSet.contains_insertAll, hi, Bool.or_true]
    have hcarries' : (b.replaced (.foreign family id callId n inputs) new).Carries live :=
      hcarries.replaced hkept (fun _ hw => hw) new
    exact hdone (.rebind hnew hadmits) (Rebuild.entered_replaced b _ new) hcarries'

end Live

namespace Tape

variable {r : Registry V} {t : Tape V}

/-- Once the sweep has decided, dropping dead code succeeds. -/
theorem WellFormed.exists_dropDead (ht : t.WellFormed) {live : Live} {actions : List (Action V)}
    (h : t.liveness r = .ok (live, actions)) : ∃ t', t.dropDead r = .ok t' := by
  have hlength := Live.length_of_sweep h
  obtain ⟨t', ht'⟩ : ∃ t', t.rebuild actions = .ok t' := by
    refine exists_rebuild
      (Live.Droppable r t.options t.zeroIndex t.valueCount t.liveBehind) (by simpa using hlength) ?_
      (fun hJ hb => hJ.step hb) fun {b} hJ i hi => ?_
    · refine ⟨?_, ?_, live, ?_, Rebuild.carries_start t live⟩
      · rw [List.map_fst_zip (by omega), t.valueCount_eq]
        simp [Rebuild.start]
      · rw [List.map_fst_zip (by omega)]
        simpa [Rebuild.start] using ht.body
      · rw [List.map_fst_zip (by omega), List.map_snd_zip (by omega), Rebuild.place_start]
        exact h
    · obtain ⟨live', hend, hcarries⟩ := hJ.swept
      obtain ⟨rfl, -⟩ := Prod.mk.inj (Except.ok.inj hend)
      have hsize : b.values.size = t.valueCount := hJ.size
      exact hcarries.value i (hsize ▸ ht.dependents i hi) (by simp [liveBehind, hi])
  exact ⟨t', bind_eq_ok_iff.mpr ⟨_, h, ht'⟩⟩

end Tape

end OpTape
