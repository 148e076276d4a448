import OpTape.Proofs.Keeping
import OpTape.Proofs.Running
/-
  Running a tape and what a pass rebuilds from it side by side. A `View` says what of the old
  state still matters; `Sim` says that the new state shows it, through the tables of the pass.
  There is one lemma for each thing that a pass does to a usage: keeping it (`Sim.kept`,
  `Sim.copied`), dropping it (`Sim.dropped`), recording something else on the new tape
  (`Sim.pushed`, `Sim.pushedOne`), entering what stands for its results (`Sim.enter`,
  `Sim.reused`) or for the vector it starts (`Sim.enterVector`) and turning results into
  constants (`Sim.enterConstants`).
-/
namespace OpTape

/-- What has to be kept of an evaluation from some usage on. -/
structure View where
  value : Nat → Prop
  vector : Nat → Prop
  /-- Comparisons that do not hold are counted. -/
  compares : Bool
  prints : Bool

namespace View

variable {V : Type}

/-- Everything matters. -/
def full : View := ⟨fun _ => True, fun _ => True, true, true⟩

/-- What matters later and is there in state `s` matters already. -/
structure Covers (view : View) (s : State V) (later : View) : Prop where
  value : ∀ {i}, i < s.values.size → later.value i → view.value i
  vector : ∀ {w}, w < s.vectors.size → later.vector w → view.vector w
  compares : later.compares = view.compares
  prints : later.prints = view.prints

theorem Covers.refl (view : View) (s : State V) : view.Covers s view where
  value _ h := h
  vector _ h := h
  compares := rfl
  prints := rfl

end View

/-- An effect that need not happen: nobody who matters notices. -/
def Effect.Idle {V : Type} (later : View) : Effect V → Prop
  | .results _ | .started _ => True
  | .compared held => held = true ∨ later.compares = false
  | .stored which _ => ¬ later.vector which
  | .printed text => text = "" ∨ later.prints = false

namespace Rebuild

variable {V : Type}

/-- State `s'` of the new tape shows what a view asks of state `s` of the old one. -/
structure Sim (b : Rebuild V) (view : View) (s s' : State V) : Prop where
  size_values : b.values.size = s.values.size
  size_vectors : b.vectors.size = s.vectors.size
  valueCount : b.tape.valueCount = s'.values.size
  vectorCount : b.tape.vectorCount = s'.vectors.size
  value : ∀ {i j}, view.value i → b.value? i = some j → s'.values[j]? = s.values[i]?
  vector : ∀ {w w'}, view.vector w → b.vector? w = some w' → s'.vectors[w']? = s.vectors[w]?
  /-- No two vectors share a number. -/
  vector_inj : ∀ {w₁ w₂ w'}, b.vector? w₁ = some w' → b.vector? w₂ = some w' → w₁ = w₂
  compareFalse : s'.compareFalse = if view.compares then s.compareFalse else 0
  out : s'.out = if view.prints then s.out else ""

theorem size_vectors_apply (s : State V) {u : Usage V} {e : Effect V} (he : e.IsOf u) :
    (s.apply e).vectors.size = s.vectors.size + if u.startsVector then 1 else 0 := by
  rw [he.counts.2]
  cases e with
  | stored which cells => exact Array.size_setIfInBounds
  | started cells => exact Array.size_push _
  | results | compared | printed => rfl

/-- Recording a usage adds to the counts of the tape what its effect adds to a state. -/
theorem Sim.counts_push {b : Rebuild V} {view : View} {s s' : State V} (h : b.Sim view s s')
    {new : Usage V} {e : Effect V} (hnew : e.IsOf new) :
    (b.tape.push new).valueCount = (s'.apply e).values.size ∧
      (b.tape.push new).vectorCount = (s'.apply e).vectors.size := by
  constructor
  · rw [Tape.valueCount_push, h.valueCount, hnew.counts.1, State.values_apply, Array.size_append]
    rfl
  · rw [size_vectors_apply s' hnew, ← h.vectorCount]
    rfl

/-- A usage that starts no vector is recorded on the new tape. -/
theorem Sim.pushed {b : Rebuild V} {view : View} {s s' : State V} (h : b.Sim view s s')
    {new : Usage V} {vals : List V} (hnew : (Effect.results vals).IsOf new) :
    (b.pushed new).Sim view s (s'.apply (.results vals)) := by
  have hvalue : ∀ {i j}, view.value i → b.value? i = some j →
      (s'.apply (.results vals)).values[j]? = s.values[i]? := by
    intro i j hi hij
    have hi' : i < s.values.size := h.size_values ▸ lt_of_value? hij
    have hold : s'.values[j]? = some s.values[i] := by
      rw [h.value hi hij, Array.getElem?_eq_getElem hi']
    rw [State.values_apply, Array.getElem?_append_left (Array.getElem?_eq_some_iff.mp hold).1,
      h.value hi hij]
  obtain ⟨hcount, hvectors⟩ := h.counts_push hnew
  exact ⟨h.size_values, h.size_vectors, hcount, hvectors, hvalue, h.vector, h.vector_inj,
    h.compareFalse, h.out⟩

/-- The results of the old usage get values of the new tape to stand for them. -/
theorem Sim.enter {b : Rebuild V} {view later : View} {s s' : State V} (h : b.Sim view s s')
    (hc : view.Covers s later) {vals : List V} {rs : List (Option Nat)}
    (hlength : rs.length = vals.length)
    (hrs : ∀ k j, later.value (s.values.size + k) → rs[k]? = some (some j) →
      s'.values[j]? = vals[k]?) :
    (b.enter rs).Sim later (s.apply (.results vals)) s' where
  size_values := by
    rw [values_enter, State.values_apply, Array.size_append, Array.size_append, h.size_values]
    simp [Effect.appended, hlength]
  size_vectors := h.size_vectors
  valueCount := h.valueCount
  vectorCount := h.vectorCount
  value := by
    intro i j hi hij
    rw [State.values_apply]
    rcases value?_enter_cases hij with hij | ⟨k, rfl, hk⟩
    · have hlt : i < s.values.size := h.size_values ▸ lt_of_value? hij
      rw [h.value (hc.value hlt hi) hij, Array.getElem?_append_left hlt]
    · rw [h.size_values] at hi ⊢
      rw [hrs k j hi hk, Array.getElem?_append_right (by omega)]
      simp [Effect.appended]
  vector := by
    intro w w' hw hww'
    exact h.vector (hc.vector (h.size_vectors ▸ lt_of_vector? hww') hw) hww'
  vector_inj := h.vector_inj
  compareFalse := by rw [hc.compares]; exact h.compareFalse
  out := by rw [hc.prints]; exact h.out

/-- The one result of the old usage is the one result of a usage that is recorded now. -/
theorem Sim.pushedOne {b : Rebuild V} {view later : View} {s s' : State V} (h : b.Sim view s s')
    (hc : view.Covers s later) {new : Usage V} {v : V} (hnew : (Effect.results [v]).IsOf new) :
    ((b.pushed new).enter [some b.tape.valueCount]).Sim later (s.apply (.results [v]))
      (s'.apply (.results [v])) := by
  refine (h.pushed hnew).enter hc rfl fun k j _ hk => ?_
  obtain ⟨rfl, rfl⟩ : k = 0 ∧ b.tape.valueCount = j := by
    simpa [List.getElem?_eq_some_iff] using hk
  rw [State.values_apply, h.valueCount]
  simp [Effect.appended]

/-- An earlier value with the same value stands for the one result of the old usage. -/
theorem Sim.reused {b : Rebuild V} {view later : View} {s s' : State V} (h : b.Sim view s s')
    (hc : view.Covers s later) {i j : Nat} {v : V} (hi : view.value i) (hij : b.value? i = some j)
    (hv : s.values[i]? = some v) :
    (b.enter [some j]).Sim later (s.apply (.results [v])) s' := by
  refine h.enter hc rfl fun k j' _ hk => ?_
  obtain ⟨rfl, rfl⟩ : k = 0 ∧ j = j' := by
    simpa [List.getElem?_eq_some_iff] using hk
  rw [h.value hi hij, hv]
  rfl

theorem Sim.narrow {b : Rebuild V} {view later : View} {s s' : State V} (h : b.Sim view s s')
    (hc : view.Covers s later) : b.Sim later s s' where
  size_values := h.size_values
  size_vectors := h.size_vectors
  valueCount := h.valueCount
  vectorCount := h.vectorCount
  value hi hij := h.value (hc.value (h.size_values ▸ lt_of_value? hij) hi) hij
  vector hw hww' := h.vector (hc.vector (h.size_vectors ▸ lt_of_vector? hww') hw) hww'
  vector_inj := h.vector_inj
  compareFalse := by rw [hc.compares]; exact h.compareFalse
  out := by rw [hc.prints]; exact h.out

/-- A usage that starts a vector is recorded on the new tape. -/
theorem Sim.pushedVector {b : Rebuild V} {view : View} {s s' : State V} (h : b.Sim view s s')
    (hb : b.Bounded) {new : Usage V} {cells : Array V} (hnew : (Effect.started cells).IsOf new) :
    (b.pushed new).Sim view s (s'.apply (.started cells)) := by
  obtain ⟨hvalues, hvectors⟩ := h.counts_push hnew
  refine ⟨h.size_values, h.size_vectors, hvalues, hvectors, h.value, ?_, h.vector_inj,
    h.compareFalse, h.out⟩
  intro w w' hw hww'
  have hlt : w' < s'.vectors.size := h.vectorCount ▸ hb.vector hww'
  show (s'.vectors.push cells)[w']? = s.vectors[w]?
  rw [Array.getElem?_push_lt hlt, ← Array.getElem?_eq_getElem]
  exact h.vector hw hww'

/-- The vector that the old usage starts gets a vector of the new tape to stand for it that stands
for no other, or none. -/
theorem Sim.enterVector {b : Rebuild V} {view later : View} {s s' : State V} (h : b.Sim view s s')
    (hc : view.Covers s later) {u : Usage V} (hstarts : u.startsVector = true) {cells : Array V}
    {o : Option Nat}
    (ho : ∀ w' ∈ o, s'.vectors[w']? = some cells ∧ ∀ w, b.vector? w ≠ some w') :
    (b.enterVector u o).Sim later (s.apply (.started cells)) s' := by
  have hn := h.narrow hc
  have hcases {w w' : Nat} (hw : (b.enterVector u o).vector? w = some w') :
      b.vector? w = some w' ∧ w < s.vectors.size ∨ w = s.vectors.size ∧ w' ∈ o := by
    rcases vector?_enterVector_cases hw with hold | ⟨-, rfl, hw'⟩
    · exact Or.inl ⟨hold, h.size_vectors ▸ lt_of_vector? hold⟩
    · exact Or.inr ⟨h.size_vectors, hw'⟩
  refine ⟨?_, ?_, ?_, ?_, ?_, ?_, ?_, hn.compareFalse, hn.out⟩
  · rw [values_enterVector]
    exact hn.size_values
  · rw [vectors_enterVector, if_pos hstarts, Array.size_push, hn.size_vectors]
    exact (Array.size_push _).symm
  · rw [tape_enterVector]
    exact hn.valueCount
  · rw [tape_enterVector]
    exact hn.vectorCount
  · intro i j hi hij
    rw [value?_enterVector] at hij
    exact hn.value hi hij
  · intro w w' hw hww'
    show s'.vectors[w']? = (s.vectors.push cells)[w]?
    rcases hcases hww' with ⟨hold, hlt⟩ | ⟨rfl, hw'⟩
    · rw [hn.vector hw hold, Array.getElem?_push_lt hlt, Array.getElem?_eq_getElem hlt]
    · rw [(ho w' hw').1, Array.getElem?_push_size]
  · intro w₁ w₂ w' h₁ h₂
    rcases hcases h₁ with ⟨hold₁, -⟩ | ⟨rfl, hw'⟩
    · rcases hcases h₂ with ⟨hold₂, -⟩ | ⟨-, hw'⟩
      · exact hn.vector_inj hold₁ hold₂
      · exact absurd hold₁ ((ho w' hw').2 w₁)
    · rcases hcases h₂ with ⟨hold₂, -⟩ | ⟨rfl, -⟩
      · exact absurd hold₂ ((ho w' hw').2 w₂)
      · rfl

/-- A usage with an idle effect is dropped. -/
theorem Sim.dropped {b : Rebuild V} {view later : View} {s s' : State V} (h : b.Sim view s s')
    (hc : view.Covers s later) {u : Usage V} {e : Effect V} (hu : e.IsOf u)
    (hidle : e.Idle later) :
    ((b.enterVector u none).enter (List.replicate u.resultCount none)).Sim later (s.apply e) s' := by
  have hn := h.narrow hc
  obtain ⟨hcount, hstarts⟩ := hu.counts
  have hzero (hcount : u.resultCount = 0) :
      (b.enterVector u none).enter (List.replicate u.resultCount none) = b.enterVector u none := by
    rw [hcount, List.replicate_zero, enter_nil]
  cases e with
  | results vals =>
    rw [enterVector_of_false b hstarts]
    refine h.enter hc (by simp [hu.2]) fun k j _ hk => ?_
    simp [List.getElem?_replicate] at hk
  | compared held =>
    rw [hzero hcount, enterVector_of_false b hstarts]
    have hsame : s'.compareFalse
        = if later.compares then s.compareFalse + (if held then 0 else 1) else 0 := by
      rw [hn.compareFalse]
      rcases hidle with rfl | hoff
      · simp
      · simp [hoff]
    exact { hn with compareFalse := hsame }
  | printed text =>
    rw [hzero hcount, enterVector_of_false b hstarts]
    have hsame : s'.out = if later.prints then s.out ++ text else "" := by
      rw [hn.out]
      rcases hidle with rfl | hoff
      · simp
      · simp [hoff]
    exact { hn with out := hsame }
  | stored which cells =>
    rw [hzero hcount, enterVector_of_false b hstarts]
    refine { hn with size_vectors := ?_, vector := ?_ }
    · rw [hn.size_vectors]
      exact (Array.size_setIfInBounds).symm
    · intro w w' hw hww'
      have hne : which ≠ w := fun heq => hidle (heq ▸ hw)
      rw [hn.vector hw hww']
      exact (Array.getElem?_setIfInBounds_ne hne).symm
  | started cells =>
    rw [hzero hcount]
    exact h.enterVector hc hstarts (by simp)

/-- What a usage does on the old tape, and what its copy does on the new one. -/
inductive Kept (b : Rebuild V) (later : View) (s : State V) : Effect V → Effect V → Prop
  | results {vals vals' : List V} (hlength : vals'.length = vals.length)
      (hvals : ∀ k, later.value (s.values.size + k) → vals'[k]? = vals[k]?) :
      Kept b later s (.results vals) (.results vals')
  | compared (held : Bool) (hc : later.compares = true) :
      Kept b later s (.compared held) (.compared held)
  | started (cells : Array V) : Kept b later s (.started cells) (.started cells)
  | stored {w w' : Nat} (hw : b.vector? w = some w') (cells : Array V) :
      Kept b later s (.stored w cells) (.stored w' cells)
  | printed (text : String) (hp : later.prints = true) :
      Kept b later s (.printed text) (.printed text)

/-- A usage that is kept is recorded on the new tape in its place. -/
theorem Sim.kept {b : Rebuild V} {view later : View} {s s' : State V} (h : b.Sim view s s')
    (hb : b.Bounded) (hc : view.Covers s later) {u new : Usage V} {e e' : Effect V}
    (hk : Kept b later s e e') (hu : e.IsOf u) (hnew : e'.IsOf new) :
    (b.replaced u new).Sim later (s.apply e) (s'.apply e') := by
  have hn := h.narrow hc
  obtain ⟨hcount, hstarts⟩ := hu.counts
  obtain ⟨hvalues, hvectors⟩ := h.counts_push hnew
  cases hk with
  | @results vals vals' hlength hvals =>
    rw [replaced, enterVector_of_false b hstarts]
    refine (h.pushed hnew).enter hc (by simp [hu.2]) fun k j hk hj => ?_
    obtain ⟨hlt, rfl⟩ : k < u.resultCount ∧ b.tape.valueCount + k = j := by
      simpa [List.getElem?_eq_some_iff] using hj
    rw [State.values_apply, h.valueCount, Array.getElem?_append_right (by omega),
      Nat.add_sub_cancel_left]
    exact (List.getElem?_toArray ..).trans (hvals k hk)
  | compared held hon =>
    rw [replaced_of_counts b hcount hstarts]
    have hsame : s'.compareFalse + (if held then 0 else 1)
        = if later.compares then s.compareFalse + (if held then 0 else 1) else 0 := by
      rw [hn.compareFalse, hon]
      rfl
    exact { hn with valueCount := hvalues, vectorCount := hvectors, compareFalse := hsame }
  | printed text hon =>
    rw [replaced_of_counts b hcount hstarts]
    have hsame : s'.out ++ text = if later.prints then s.out ++ text else "" := by
      rw [hn.out, hon]
      rfl
    exact { hn with valueCount := hvalues, vectorCount := hvectors, out := hsame }
  | @stored w w' hw cells =>
    rw [replaced_of_counts b hcount hstarts]
    refine { hn with valueCount := hvalues, vectorCount := hvectors, size_vectors := ?_, vector := ?_ }
    · exact hn.size_vectors.trans Array.size_setIfInBounds.symm
    · intro x x' hx hxx'
      show (s'.vectors.setIfInBounds w' cells)[x']? = (s.vectors.setIfInBounds w cells)[x]?
      by_cases heq : x = w
      · subst heq
        obtain rfl : x' = w' := Option.some.inj (hxx'.symm.trans hw)
        have hlt : x < s.vectors.size := hn.size_vectors ▸ lt_of_vector? hw
        have hlt' : x' < s'.vectors.size := hn.vectorCount ▸ hb.vector hw
        rw [Array.getElem?_setIfInBounds_self_of_lt hlt,
          Array.getElem?_setIfInBounds_self_of_lt hlt']
      · have hne : w' ≠ x' := fun heq' => heq (hn.vector_inj hxx' (heq' ▸ hw))
        rw [Array.getElem?_setIfInBounds_ne hne, hn.vector hx hxx',
          Array.getElem?_setIfInBounds_ne (Ne.symm heq)]
  | started cells =>
    have hzero : u.resultCount = 0 := hcount
    rw [replaced_eq, hzero, List.range'_zero, List.map_nil, enter_nil]
    refine (h.pushedVector hb hnew).enterVector hc hstarts fun w' hw' => ?_
    -- the new vector has a number that no earlier one can have
    obtain rfl : b.tape.vectorCount = w' := Option.some.inj hw'
    refine ⟨?_, fun w hw => Nat.lt_irrefl _ (hb.vector hw)⟩
    rw [h.vectorCount]
    exact Array.getElem?_push_size

/-- What the table carries over is read from the new state as it is from the old one. -/
theorem Sim.mapM_entry_eq {b : Rebuild V} {view : View} {s s' : State V} (h : b.Sim view s s')
    {is js : List Nat} (hjs : is.mapM b.value? = some js) (hview : ∀ i ∈ is, view.value i) :
    js.mapM (entry s'.values) = (is.mapM (entry s.values) : Except (Fault V) (List V)) := by
  refine mapM_congr_of_mapM hjs fun i hi j hij => ?_
  simp only [entry, h.value (hview i hi) hij]

section

variable [Scalar V]

/-- A usage that is copied has on the new tape the effect it has on the old one. -/
theorem Sim.copied {b : Rebuild V} {view later : View} {s s' : State V} (h : b.Sim view s s')
    (hb : b.Bounded) (hc : view.Covers s later) {u new : Usage V}
    (hnew : Usage.Renames b.value? b.vector? u new) (hreads : ∀ i ∈ u.reads, view.value i)
    (hvector : ∀ w ∈ u.vector?, view.vector w)
    (hcompare : u.kind = .compare → later.compares = true)
    (hprint : u.kind = .print → later.prints = true) {r : Registry V} {e : Effect V}
    (he : u.effect r s.values s.vectors = .ok e) :
    ∃ e', new.effect r s'.values s'.vectors = .ok e' ∧
      (b.replaced u new).Sim later (s.apply e) (s'.apply e') := by
  obtain ⟨e', he', hrename⟩ := hnew.exists_effect
    (fun i hi j hij => h.value (hreads i hi) hij)
    (fun w hw w' hww' => h.vector (hvector w hw) hww') he
  have hu := Usage.isOf_of_effect he
  have hkept : Kept b later s e e' := by
    cases hrename with
    | results vals => exact .results rfl fun _ _ => rfl
    | compared held => exact .compared held (hcompare hu)
    | started cells => exact .started cells
    | stored hw cells => exact .stored hw cells
    | printed text => exact .printed text (hprint hu)
  exact ⟨e', he', h.kept hb hc hkept hu (Usage.isOf_of_effect he')⟩

/-- Where vectors keep their numbers, a copy does exactly what the usage does, faults included. -/
theorem Sim.effect_renamed {b : Rebuild V} {s s' : State V} (h : b.Sim .full s s')
    (hkeeps : b.KeepsVectors) {u new : Usage V} (hnew : Usage.Renames b.value? b.vector? u new)
    (r : Registry V) : new.effect r s'.values s'.vectors = u.effect r s.values s.vectors := by
  refine hnew.effect_eq r (fun i _ j hij => h.value trivial hij) fun w _ w' hww' => ?_
  obtain ⟨-, rfl⟩ := hkeeps.vector?_eq_some_iff.mp hww'
  exact ⟨rfl, h.vector trivial hww'⟩

end

/-! ## Constants -/

theorem apply_results_append (s : State V) (xs ys : List V) :
    (s.apply (.results xs)).apply (.results ys) = s.apply (.results (xs ++ ys)) := by
  simp [State.apply, append_list_eq, Array.append_assoc]

/-- What stands for a result is a constant with its value or, without one, the result at the
same place behind `first`. -/
theorem getElem?_constantIndices {first next : Nat} {values : List (Option V)} {k j : Nat}
    (h : (constantIndices first next values)[k]? = some (some j)) :
    values[k]? = some none ∧ j = first + k ∨
      ∃ v m, values[k]? = some (some v) ∧ j = next + m ∧ (values.filterMap id)[m]? = some v := by
  induction values generalizing first next k with
  | nil => simp [constantIndices] at h
  | cons value rest ih =>
    cases value with
    | none =>
      cases k with
      | zero =>
        left
        simpa [constantIndices, eq_comm] using h
      | succ k =>
        have hrest : (constantIndices (first + 1) next rest)[k]? = some (some j) := h
        rcases ih hrest with ⟨hnone, rfl⟩ | hsome
        · exact Or.inl ⟨hnone, by omega⟩
        · exact Or.inr hsome
    | some value =>
      cases k with
      | zero =>
        right
        refine ⟨value, 0, rfl, ?_, rfl⟩
        simpa [constantIndices, eq_comm] using h
      | succ k =>
        have hrest : (constantIndices (first + 1) (next + 1) rest)[k]? = some (some j) := h
        rcases ih hrest with ⟨hnone, rfl⟩ | ⟨v, m, hv, rfl, hm⟩
        · exact Or.inl ⟨hnone, by omega⟩
        · exact Or.inr ⟨v, m + 1, hv, by omega, hm⟩

/-- Constants are recorded on the new tape. -/
theorem Sim.withConstants {b : Rebuild V} {view : View} {s s' : State V} (h : b.Sim view s s')
    (values : List (Option V)) :
    (b.withConstants values).Sim view s (s'.apply (.results (values.filterMap id))) := by
  induction values generalizing b s' with
  | nil =>
    have hsame : s'.apply (.results []) = s' := by simp [State.apply, append_list_eq]
    rw [List.filterMap_nil, hsame]
    exact h
  | cons value rest ih =>
    cases value with
    | none => exact ih h
    | some v =>
      have hone : (Effect.results [v]).IsOf (.constant v) := ⟨rfl, rfl⟩
      have hrest := ih (h.pushed hone)
      rw [apply_results_append] at hrest
      exact hrest

/-- Constants are recorded, and they stand for the results that have a value. The other results
are on the new tape already, behind value `first`. -/
theorem Sim.enterConstants {b : Rebuild V} {view later : View} {s s' : State V}
    (h : b.Sim view s s') (hc : view.Covers s later) {first : Nat} {vals : List V}
    {values : List (Option V)} (hlength : values.length = vals.length)
    (hnone : ∀ k : Nat, values[k]? = some none → s'.values[first + k]? = vals[k]?)
    (hsome : ∀ (k : Nat) (v : V), values[k]? = some (some v) → vals[k]? = some v) :
    ((b.withConstants values).enter (constantIndices first b.tape.valueCount values)).Sim later
      (s.apply (.results vals)) (s'.apply (.results (values.filterMap id))) := by
  refine (h.withConstants values).enter hc ?_ fun k j _ hk => ?_
  · rw [length_constantIndices, hlength]
  · rw [State.values_apply]
    rcases getElem?_constantIndices hk with ⟨hv, rfl⟩ | ⟨v, m, hv, rfl, hm⟩
    · have hlt : k < vals.length := by
        rw [← hlength]
        exact (List.getElem?_eq_some_iff.mp hv).1
      have hold : s'.values[first + k]? = some vals[k] := by
        rw [hnone k hv, List.getElem?_eq_getElem hlt]
      rw [Array.getElem?_append_left (Array.getElem?_eq_some_iff.mp hold).1, hnone k hv]
    · rw [hsome k v hv, h.valueCount, Array.getElem?_append_right (by omega),
        Nat.add_sub_cancel_left]
      exact (List.getElem?_toArray ..).trans hm

/-- All results of a usage become constants. -/
theorem Sim.constants {b : Rebuild V} {view later : View} {s s' : State V}
    (h : b.Sim view s s') (hc : view.Covers s later) (vals : List V) :
    ((b.withConstants (vals.map some)).enter
      (constantIndices 0 b.tape.valueCount (vals.map some))).Sim later
      (s.apply (.results vals)) (s'.apply (.results ((vals.map some).filterMap id))) := by
  refine h.enterConstants hc (by simp) (fun k hk => ?_) fun k v hk => ?_
  · simp at hk
  · simpa using hk

/-- Behind the zero constant the old and the new evaluation are in the same state. -/
theorem Sim.start [Scalar V] (t : Tape V) (view : View) {x : List V} (hx : x.length = t.indCount) :
    (start t).Sim view (State.start x) (State.start x) := by
  have hsize : t.indCount + 1 = (State.start x).values.size := by
    rw [State.start, Array.size_push, List.size_toArray, hx]
  have hvector {w w' : Nat} : (Rebuild.start t).vector? w ≠ some w' := by
    simp [Rebuild.start, vector?]
  refine ⟨by simp [Rebuild.start, hsize], rfl, hsize, rfl, fun _ hij => ?_,
    fun _ hw => absurd hw hvector, fun hw => absurd hw hvector, by simp [State.start],
    by simp [State.start]⟩
  obtain ⟨hlt, heq⟩ := Array.getElem?_eq_some_iff.mp (value?_eq_some_iff.mp hij)
  simp only [Rebuild.start, Array.getElem_map, Array.getElem_range, Option.some.injEq] at heq
  rw [heq]

end Rebuild

end OpTape
