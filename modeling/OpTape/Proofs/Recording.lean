import OpTape.Proofs.Representation
/-
  Recording, then walking. A usage is read back from its slot as it was given
  (`Packed.usage?_slot`), whatever is packed behind it, since the columns only grow. Each call
  adds one slot behind those that are there (`Tape.slots_push`), so by induction on the calls a
  walk meets them in order (`Records.entered`), and what it has met already stays as it was.
-/
namespace OpTape

variable {V : Type}

/-! ## Reading a usage back -/

theorem getElem?_place (strings : Array String) (text : String) :
    (intern strings text)[place strings text]? = some text := by
  unfold intern place
  split
  · rename_i hmem
    have hplace : strings.idxOf text = strings.toList.idxOf text :=
      List.idxOf_toArray
    rw [← Array.getElem?_toList, hplace]
    exact List.getElem?_idxOf (Array.mem_toList_iff.mpr hmem)
  · rename_i hnew
    rw [Array.idxOf_eq_size hnew, Array.getElem?_push_size]

/-- What stands in a column stays there when the column grows. -/
theorem getElem?_of_prefix {α : Type} {xs ys : Array α} (h : xs.toList <+: ys.toList) {i : Nat}
    {x : α} (hx : xs[i]? = some x) : ys[i]? = some x := by
  obtain ⟨hi, rfl⟩ := Array.getElem?_eq_some_iff.mp hx
  rw [← Array.getElem?_toList]
  exact List.prefix_iff_getElem?.mp h i hi

namespace Packed

variable {p q : Packed V} {u : Usage V}

/-- A usage is read back from its slot as it was packed. -/
theorem usage?_slot (h : (p.push u).Begins q) (first : Nat) :
    q.usage? (p.slot first u) = some u := by
  have hargs := slotArgs_slot h first
  have hkind : (p.slot first u).kind = u.kind := rfl
  unfold usage?
  rw [hargs, hkind]
  cases u with
  | constant v =>
    have hv : q.constants[p.constants.size]? = some v :=
      getElem?_of_prefix h.constants Array.getElem?_push_size
    simp [slice, Usage.kind, hv]
  | compare cmp x y => simp [slice, Usage.kind, Comparison.ofCode?_code]
  | select cmp x y z w => simp [slice, Usage.kind, Comparison.ofCode?_code]
  | vector initial =>
    have hinitial : q.vectors[p.vectors.size]? = some initial :=
      getElem?_of_prefix h.vectors Array.getElem?_push_size
    simp [slice, Usage.kind, hinitial]
  | print before after x y =>
    have hbefore : q.strings[place p.strings before]? = some before :=
      getElem?_of_prefix ((intern_begins _ after).trans h.strings) (getElem?_place _ before)
    have hafter : q.strings[place (intern p.strings before) after]? = some after :=
      getElem?_of_prefix h.strings (getElem?_place _ after)
    simp [slice, Usage.kind, hbefore, hafter]
  | sum add sub => simp [slice, Usage.kind]
  | foreign family id callId n inputs => simp [slice, Usage.kind]
  | _ => rfl

theorem slice_of_ofOperands? {kind : Kind} {operands : List Nat}
    (h : Usage.ofOperands? kind operands = some u) (p : Packed V) :
    u.kind = kind ∧ p.slice u = operands := by
  unfold Usage.ofOperands? at h
  split at h <;> cases h <;> exact ⟨rfl, rfl⟩

end Packed

namespace Tape

/-! ## Calls -/

/-- `t'` comes from `t` by recording. `calls` are the usages that were given and what each call
returned, in order; setting dependents or an option may stand between them. -/
inductive Records (t : Tape V) : Tape V → List (Usage V × Recorded) → Prop
  | none : Records t t []
  | record {t' t'' : Tape V} {calls : List (Usage V × Recorded)} {u : Usage V} {offer : Recorded}
      (h : Records t t' calls) (hu : t'.record? u = some (offer, t'')) :
      Records t t'' (calls ++ [(u, offer)])
  | setDependents {t' t'' : Tape V} {calls : List (Usage V × Recorded)} {values : List Nat}
      (h : Records t t' calls) (hset : t'.setDependents? values = some t'') : Records t t'' calls
  | setOption {t' t'' : Tape V} {calls : List (Usage V × Recorded)} {name value : String}
      (h : Records t t' calls) (hset : t'.setOption name value = .ok t'') : Records t t'' calls

theorem values_of_offers {t : Tape V} {u : Usage V} {first : Nat}
    (h : t.offers u = .values first) : first = t.valueCount := by
  cases u <;> cases h <;> rfl

theorem vector_of_offers {t : Tape V} {u : Usage V} {which : Nat}
    (h : t.offers u = .vector which) : u.kind = .vector ∧ which = t.vectorCount := by
  cases u <;> cases h
  exact ⟨rfl, rfl⟩

variable [Scalar V] {t t' : Tape V}

/-- What the packed form of `t` holds at the slot of a call: the usage as it was given, under the
number that the call returned. -/
structure GivesBack (t : Tape V) (call : Usage V × Recorded) (s : Slot) : Prop where
  usage : t.pack.usage? s = some call.1
  kind : s.kind = call.1.kind
  operands : t.pack.slotValues s = call.1.args
  resultCount : s.resultCount = call.1.resultCount
  first : ∀ first, call.2 = .values first →
    s.results = List.range' first call.1.resultCount
  which : ∀ which, call.2 = .vector which → t.pack.slotArgs s = [which]
  /-- A call that names a unary or binary operator is given back by its operands alone. -/
  operator : ∀ kind operands, Usage.ofOperands? kind operands = some call.1 →
    s.kind = kind ∧ t.pack.slotArgs s = operands

/-- The usage of a call was packed before anything behind it, and the call returned the number of
its first result or of the vector that it starts. -/
def Entered (t : Tape V) (call : Usage V × Recorded) (s : Slot) : Prop :=
  ∃ (p : Packed V) (first : Nat), s = p.slot first call.1 ∧ (p.push call.1).Begins t.pack ∧
    (∀ i, call.2 = .values i → i = first) ∧
    ∀ w, call.2 = .vector w → call.1.kind = .vector ∧ w = p.vectors.size

theorem Entered.givesBack {call : Usage V × Recorded} {s : Slot} (h : t.Entered call s) :
    t.GivesBack call s := by
  obtain ⟨p, first, rfl, hbegins, hfirst, hwhich⟩ := h
  have hargs := Packed.slotArgs_slot hbegins first
  exact
    { usage := Packed.usage?_slot hbegins first
      kind := rfl
      operands := Packed.slotValues_slot hbegins first
      resultCount := rfl
      first := fun i hi => by
        rw [hfirst i hi]
        rfl
      which := fun w hw => by
        obtain ⟨hkind, rfl⟩ := hwhich w hw
        rw [hargs, Packed.slice_of_vector p _ hkind]
      operator := fun kind operands hoperands => by
        rw [hargs]
        exact Packed.slice_of_ofOperands? hoperands p }

theorem Entered.mono {call : Usage V × Recorded} {s : Slot} (h : t.Entered call s)
    (hbegins : t.pack.Begins t'.pack) : t'.Entered call s := by
  obtain ⟨p, first, hs, hp, hreturned⟩ := h
  exact ⟨p, first, hs, hp.trans hbegins, hreturned⟩

/-! ## Walking what was recorded -/

theorem pack_push (t : Tape V) (u : Usage V) : (t.push u).pack = t.pack.push u := by
  rw [pack, usages_push, Packed.ofUsages, List.foldl_append]
  rfl

/-- A usage that is recorded gets the slot behind all others. -/
theorem slots_push (t : Tape V) (u : Usage V) :
    (t.push u).slots = t.slots ++ [t.pack.slot t.valueCount u] := by
  rw [slots, usages_push, Packed.slots_append, indCount_push, resultTotal_usages]
  rfl

theorem size_vectors_pack (t : Tape V) : t.pack.vectors.size = t.vectorCount := by
  have hsize : t.pack.vectors.size = 0 + t.usages.countP (·.kind = .vector) :=
    Packed.size_foldl (·.vectors.size) Packed.size_vectors_push {} t.usages
  have hcount : t.usages.countP (·.kind = .vector) = t.usages.countP Usage.startsVector :=
    List.countP_congr fun u _ => by cases u <;> simp [Usage.kind, Usage.startsVector]
  rw [hsize, hcount, Nat.zero_add, t.vectorCount_eq]
  rfl

theorem entered_push (t : Tape V) (u : Usage V) :
    (t.push u).Entered (u, t.offers u) (t.pack.slot t.valueCount u) := by
  refine ⟨t.pack, t.valueCount, rfl, pack_push t u ▸ .refl _, fun i hi => values_of_offers hi,
    fun w hw => ?_⟩
  rw [size_vectors_pack]
  exact vector_of_offers hw

/-- Calls add slots behind those that are there, one for each call and in order. -/
theorem Records.entered {calls : List (Usage V × Recorded)} (h : t.Records t' calls) :
    t.pack.Begins t'.pack ∧ ∃ slots, t'.slots = t.slots ++ slots ∧
      List.Forall₂ t'.Entered calls slots := by
  induction h with
  | none => exact ⟨.refl _, [], (List.append_nil _).symm, .nil⟩
  | @record t₁ t₂ calls u offer _ hu ih =>
    obtain ⟨hbegins, slots, hslots, hentered⟩ := ih
    obtain ⟨tape, happend, heq⟩ := Option.map_eq_some_iff.mp hu
    obtain ⟨-, rfl⟩ := append?_eq_some_iff.mp happend
    obtain ⟨rfl, rfl⟩ := Prod.mk.inj heq
    have hpush : t₁.pack.Begins (t₁.push u).pack := pack_push t₁ u ▸ Packed.begins_push _ u
    refine ⟨hbegins.trans hpush, slots ++ [t₁.pack.slot t₁.valueCount u], ?_, ?_⟩
    · rw [slots_push, hslots, List.append_assoc]
    · exact List.rel_append (hentered.imp fun _ _ h => h.mono hpush) (.cons (entered_push t₁ u) .nil)
  | setDependents _ hset ih =>
    obtain ⟨-, rfl⟩ := setDependents?_eq_some_iff.mp hset
    exact ih
  | setOption _ hset ih =>
    obtain ⟨_, -, heq⟩ := bind_eq_ok_iff.mp hset
    obtain rfl := Except.ok.inj heq
    exact ih

/-- What is packed at a slot reads the same in columns that go on behind it. -/
theorem reads_of_begins (h : t.pack.Begins t'.pack) {s : Slot} (hs : s ∈ t.slots) :
    t'.pack.usage? s = t.pack.usage? s ∧ t'.pack.slotArgs s = t.pack.slotArgs s ∧
      t'.pack.slotValues s = t.pack.slotValues s := by
  obtain ⟨before, behind, hslots⟩ := List.append_of_mem hs
  obtain ⟨us, u, us', hus, -, rfl⟩ := Packed.slots_eq_append_cons hslots
  have hbegins : ((us.foldl Packed.push {}).push u).Begins t.pack := by
    rw [pack, Packed.ofUsages, hus, List.foldl_append]
    exact Packed.begins_foldl _ us'
  have hbegins' := hbegins.trans h
  rw [Packed.usage?_slot hbegins, Packed.usage?_slot hbegins', Packed.slotArgs_slot hbegins,
    Packed.slotArgs_slot hbegins', Packed.slotValues_slot hbegins, Packed.slotValues_slot hbegins']
  exact ⟨rfl, rfl, rfl⟩

/-- Recording, then walking, returns what was recorded. On a tape that starts over with `n`
independents, the cursor meets the zero constant and then one usage for each call, in order, and
each is given back as it was recorded. Whatever is recorded later comes behind these usages, and
they read as before. -/
theorem walk_of_records {n : Nat} {options : Options} {calls : List (Usage V × Recorded)}
    (h : (new n options).Records t calls) :
    ∃ zero slots, t.pack.Walks t.cursor (zero :: slots) ∧
      t.GivesBack (.constant Scalar.zero, .values n) zero ∧
      List.Forall₂ t.GivesBack calls slots ∧
      ∀ t' later, t.Records t' later →
        ∃ newer, t'.pack.Walks t'.cursor (zero :: slots ++ newer) ∧
          List.Forall₂ t'.GivesBack later newer ∧
          ∀ s ∈ zero :: slots, t'.pack.usage? s = t.pack.usage? s ∧
            t'.pack.slotArgs s = t.pack.slotArgs s ∧
            t'.pack.slotValues s = t.pack.slotValues s := by
  obtain ⟨hbegins, slots, hslots, hentered⟩ := h.entered
  have hzero : t.Entered (.constant Scalar.zero, .values n)
      (Packed.slot {} n (.constant Scalar.zero)) :=
    ⟨{}, n, rfl, hbegins, fun i hi => (Recorded.values.inj hi).symm, fun w hw => by cases hw⟩
  have hslots' : t.slots = Packed.slot {} n (.constant Scalar.zero) :: slots := hslots
  refine ⟨Packed.slot {} n (.constant Scalar.zero), slots, hslots' ▸ t.walks_cursor,
    hzero.givesBack, hentered.imp fun _ _ h => h.givesBack, fun t' later hlater => ?_⟩
  obtain ⟨hbegins', newer, hnewer, hentered'⟩ := hlater.entered
  refine ⟨newer, ?_, hentered'.imp fun _ _ h => h.givesBack, fun s hs => ?_⟩
  · have hwalks := t'.walks_cursor
    rwa [hnewer, hslots'] at hwalks
  · exact reads_of_begins hbegins' (hslots' ▸ hs)

/-- Calls that fill every side table, after a tape was started over. -/
def variedCalls : List (Usage Rat × Recorded) :=
  [(.constant 5, .values 3), (.sum [0, 3] [1], .values 4), (.vector [4, 0], .vector 0),
    (.load 0 2, .values 5), (.print "at " "" 5 3, .nothing),
    (.foreign .map 1 7 2 [0, 4], .values 6), (.unary .sqrt 7, .values 8)]

theorem walk_of_variedCalls : ∃ t : Tape Rat,
    (((new 4 {}).push (.constant 1)).restart 2).Records t variedCalls ∧
      t.pack.args = #[0, 1, 2, 1, 0, 3, 1, 6, 0, 0, 2, 1, 0, 5, 3, 7, 2, 1, 7, 0, 4, 7, 7] ∧
      ∃ zero slots, t.pack.Walks t.cursor (zero :: slots) ∧
        List.Forall₂ t.GivesBack variedCalls slots := by
  have h : (new 2 {} : Tape Rat).Records _ variedCalls :=
    ((((((Records.none.record rfl).record rfl).record rfl).record rfl).record rfl).record rfl).record
      rfl
  obtain ⟨zero, slots, hwalks, -, hgiven, -⟩ := walk_of_records h
  exact ⟨_, h, by with_unfolding_all rfl, zero, slots, hwalks, hgiven⟩

end Tape

end OpTape
