import OpTape.Proofs.Numbering
import OpTape.Proofs.Placement
/-
  Where merged values come from. Among the usages of the merged tape that are equal up to the order
  of two operands, one stands first (`IsSource`), and the results of all others are read from its
  results (`Merge.Sourced.source`), so merging a tape without copies changes nothing
  (`Merge.Walk.unchanged`). `Tape.Merges` puts this without the walk: the usages stay where they
  are, and whoever read a usage reads the one that it is `ReadFrom`. No value that is read is a
  result of a later copy (`Merges.ne_self`).
-/
namespace OpTape

variable {V : Type}

namespace Usage

theorem isMergeable_ordered (u : Usage V) : u.ordered.isMergeable = u.isMergeable := by
  cases u with
  | binary op x y =>
    simp only [ordered]
    split <;> rfl
  | _ => rfl

theorem isMergeable_of_ordered_eq {u w : Usage V} (h : u.ordered = w.ordered) :
    u.isMergeable = w.isMergeable := by
  rw [← isMergeable_ordered, h, isMergeable_ordered]

theorem resultCount_of_ordered_eq {u w : Usage V} (h : u.ordered = w.ordered) :
    u.resultCount = w.resultCount := by
  rw [← resultCount_ordered, h, resultCount_ordered]

/-- The usage at position `l` and place `p` is the first that is equal to `w` up to the order of two
operands. -/
structure IsSource (placed : List (Place × Usage V)) (l : Nat) (p : Place) (w : Usage V) : Prop where
  found : ∃ u, placed[l]? = some (p, u) ∧ u.ordered = w.ordered
  least : ∀ {l' p' u'}, placed[l']? = some (p', u') → u'.ordered = w.ordered → l ≤ l'

/-- The usages that can be merged, with the operands of commutative operators in ascending order. -/
def keys (us : List (Usage V)) : List (Usage V) := (us.filter isMergeable).map ordered

theorem mem_keys {us : List (Usage V)} {v : Usage V} :
    v ∈ keys us ↔ ∃ u ∈ us, u.isMergeable = true ∧ u.ordered = v := by
  simp [keys, and_assoc]

theorem keys_append (us vs : List (Usage V)) : keys (us ++ vs) = keys us ++ keys vs := by
  rw [keys, List.filter_append, List.map_append]
  rfl

theorem IsSource.append {placed : List (Place × Usage V)} {l : Nat} {p : Place} {w : Usage V}
    (h : IsSource placed l p w) (more : List (Place × Usage V)) :
    IsSource (placed ++ more) l p w := by
  obtain ⟨u, hl, hu⟩ := h.found
  have hlt : l < placed.length := (List.getElem?_eq_some_iff.mp hl).1
  refine ⟨⟨u, by rw [List.getElem?_append_left hlt, hl], hu⟩, fun {l' p' u'} hl' hu' => ?_⟩
  rcases Nat.lt_or_ge l' placed.length with hlt' | hge
  · rw [List.getElem?_append_left hlt'] at hl'
    exact h.least hl' hu'
  · exact Nat.le_trans (Nat.le_of_lt hlt) hge

theorem IsSource.congr {placed : List (Place × Usage V)} {l : Nat} {p : Place} {w w' : Usage V}
    (h : IsSource placed l p w) (hw : w.ordered = w'.ordered) : IsSource placed l p w' where
  found := by
    obtain ⟨u, hl, hu⟩ := h.found
    exact ⟨u, hl, hu.trans hw⟩
  least hl' hu' := h.least hl' (hu'.trans hw.symm)

end Usage

namespace Merge

variable [Scalar V] [DecidableEq V] {m m' : Merge V} {u w : Usage V} {i j k l : Nat} {p q : Place}

/-- What the list of first equals says of the values of each usage so far, and what was seen. -/
structure Sourced (m : Merge V) : Prop where
  independents : ∀ i < m.tape.indCount, m.value? i = some i
  self : ∀ {k : Nat} {q : Place} {w : Usage V}, m.tape.placed[k]? = some (q, w) →
    w.isMergeable = false → ∀ j < w.resultCount, m.value? (q.first + j) = some (q.first + j)
  source : ∀ {k : Nat} {q : Place} {w : Usage V}, m.tape.placed[k]? = some (q, w) →
    w.isMergeable = true → ∃ l p, Usage.IsSource m.tape.placed l p w ∧
      (w.ordered, p.first) ∈ m.seen ∧ ∀ j < w.resultCount, m.value? (q.first + j) = some (p.first + j)
  seen : ∀ {v : Usage V} {first : Nat}, (v, first) ∈ m.seen →
    ∃ l p u, Usage.IsSource m.tape.placed l p u ∧ u.isMergeable = true ∧ u.ordered = v ∧
      p.first = first

omit [DecidableEq V] in
theorem sourced_start (t : Tape V) : (start t).Sourced := by
  have hvalue (i : Nat) (hi : i < t.indCount + 1) : (start t).value? i = some i :=
    (value?_start t).mpr ⟨hi, rfl⟩
  have hsource : Usage.IsSource (start t).tape.placed 0 t.zeroPlace (.constant Scalar.zero) :=
    ⟨⟨_, rfl, rfl⟩, fun _ _ => Nat.zero_le _⟩
  have honly {k : Nat} {q : Place} {w : Usage V} (hk : (start t).tape.placed[k]? = some (q, w)) :
      q = t.zeroPlace ∧ w = .constant Scalar.zero := by
    cases k with
    | zero => exact Prod.mk.inj (Option.some.inj hk.symm)
    | succ k => cases hk
  refine ⟨fun i hi => hvalue i (Nat.lt_succ_of_lt hi), fun hk hw => ?_, fun hk _ => ?_,
    fun {v first} h => ?_⟩
  · obtain ⟨rfl, rfl⟩ := honly hk
    cases hw
  · obtain ⟨rfl, rfl⟩ := honly hk
    refine ⟨0, t.zeroPlace, hsource, List.mem_singleton.mpr rfl, fun j hj => ?_⟩
    obtain rfl := Nat.lt_one_iff.mp hj
    exact hvalue _ (Nat.lt_succ_self _)
  · obtain ⟨rfl, rfl⟩ := Prod.mk.inj (List.mem_singleton.mp h)
    exact ⟨0, t.zeroPlace, _, hsource, rfl, rfl, rfl⟩

/-- The place of the next usage. -/
def place (m : Merge V) : Place := { first := m.tape.valueCount, vector := m.tape.vectorCount }

theorem placed_record (m : Merge V) (u : Usage V) :
    (m.record u).tape.placed = m.tape.placed ++ [(m.place, u)] :=
  m.tape.placed_push u

/-- A position holds a usage from before or the new one. -/
theorem placed_record_cases (hk : (m.record u).tape.placed[k]? = some (q, w)) :
    m.tape.placed[k]? = some (q, w) ∨ k = m.tape.placed.length ∧ q = m.place ∧ w = u :=
  Tape.placed_push_cases hk

omit [Scalar V] in
theorem mem_seen_of_mem {v : Usage V} {first : Nat} (h : (v, first) ∈ m.seen) (u : Usage V) :
    (v, first) ∈ (m.record u).seen := by
  unfold record
  dsimp only
  split
  · exact List.mem_cons_of_mem _ h
  · exact h

theorem isSource_record (h : Usage.IsSource m.tape.placed l p w) (u : Usage V) :
    Usage.IsSource (m.record u).tape.placed l p w := by
  rw [placed_record]
  exact h.append _

namespace Sourced

theorem lookup_ne_none (hm : m.Sourced) (hk : m.tape.placed[k]? = some (q, w))
    (hw : w.isMergeable = true) : m.seen.lookup w.ordered ≠ none := by
  obtain ⟨l, p, -, hseen, -⟩ := hm.source hk hw
  intro hnone
  have hne := List.lookup_eq_none_iff.mp hnone _ hseen
  simp at hne

/-- A usage with a key that was not seen is the first with its key. -/
theorem isSource_new (hm : m.Sourced) (hu : u.isMergeable = true)
    (hnone : m.seen.lookup u.ordered = none) :
    Usage.IsSource (m.record u).tape.placed m.tape.placed.length m.place u where
  found := ⟨u, by rw [placed_record, List.getElem?_concat_length], rfl⟩
  least hl' hu' := by
    rcases placed_record_cases hl' with hl' | ⟨rfl, -⟩
    · have hmerge := (Usage.isMergeable_of_ordered_eq hu').trans hu
      exact absurd (hu' ▸ hnone) (hm.lookup_ne_none hl' hmerge)
    · exact Nat.le_refl _

/-- The new usage has its results from the first one with its key. -/
theorem source_record (hm : m.Sourced) (hordered : m.Ordered) (hu : u.isMergeable = true) :
    ∃ l p, Usage.IsSource (m.record u).tape.placed l p u ∧
      (u.ordered, p.first) ∈ (m.record u).seen ∧ p.first = m.source u := by
  rcases seen_record_cases hordered hu with ⟨hnone, hsource, heq⟩ | ⟨hmem, heq⟩
  · rw [heq, hsource]
    exact ⟨_, m.place, hm.isSource_new hu hnone, List.mem_cons_self, rfl⟩
  · obtain ⟨l, p, v, hsource, -, hv, hfirst⟩ := hm.seen hmem
    rw [heq]
    exact ⟨l, p, (isSource_record hsource u).congr hv, hfirst ▸ hmem, hfirst⟩

/-- The walk keeps track of one more usage. -/
theorem record (hm : m.Sourced) (hordered : m.Ordered) (u : Usage V) : (m.record u).Sourced where
  independents i hi := value?_record_of_value? (hm.independents i hi) u
  self {k q w} hk hw j hj := by
    rcases placed_record_cases hk with hk | ⟨rfl, rfl, rfl⟩
    · exact value?_record_of_value? (hm.self hk hw j hj) u
    · have hsource : m.source w = m.place.first := by
        rw [Merge.source, hw, if_neg Bool.false_ne_true]
        rfl
      have hresult : (m.record w).value? (m.place.first + j) = some (m.source w + j) :=
        value?_record_add hordered hj
      rwa [hsource] at hresult
  source {k q w} hk hw := by
    rcases placed_record_cases hk with hk | ⟨rfl, rfl, rfl⟩
    · obtain ⟨l, p, hsource, hseen, hvalue⟩ := hm.source hk hw
      exact ⟨l, p, isSource_record hsource u, mem_seen_of_mem hseen u,
        fun j hj => value?_record_of_value? (hvalue j hj) u⟩
    · obtain ⟨l, p, hsource, hseen, hfirst⟩ := hm.source_record hordered hw
      exact ⟨l, p, hsource, hseen, fun j hj => hfirst ▸ value?_record_add hordered hj⟩
  seen {v first} h := by
    have hbefore (h : (v, first) ∈ m.seen) : ∃ l p u',
        Usage.IsSource (m.record u).tape.placed l p u' ∧ u'.isMergeable = true ∧ u'.ordered = v ∧
          p.first = first := by
      obtain ⟨l, p, u', hsource, hrest⟩ := hm.seen h
      exact ⟨l, p, u', isSource_record hsource u, hrest⟩
    cases hu : u.isMergeable with
    | false => exact hbefore (seen_record_of_not hu ▸ h)
    | true =>
      rcases seen_record_cases hordered hu with ⟨hnone, hsource, heq⟩ | ⟨-, heq⟩
      · rw [heq, hsource] at h
        rcases List.mem_cons.mp h with hfirst | h
        · obtain ⟨rfl, rfl⟩ := Prod.mk.inj hfirst
          exact ⟨_, m.place, u, hm.isSource_new hu hnone, hu, rfl, rfl⟩
        · exact hbefore h
      · exact hbefore (heq ▸ h)

omit [DecidableEq V] in
theorem mem_keys (hm : m.Sourced) {v : Usage V} {first : Nat} (h : (v, first) ∈ m.seen) :
    v ∈ Usage.keys m.tape.usages := by
  obtain ⟨l, p, u, hsource, hu, rfl, -⟩ := hm.seen h
  obtain ⟨u', hl, hu'⟩ := hsource.found
  exact Usage.mem_keys.mpr ⟨u', Tape.mem_usages_of_placed hl,
    (Usage.isMergeable_of_ordered_eq hu').trans hu, hu'⟩

end Sourced

theorem Walk.sourced {us us' : List (Usage V)} (h : Walk m us us' m') (hordered : m.Ordered)
    (hm : m.Sourced) : m'.Sourced := by
  induction h with
  | nil => exact hm
  | cons hu _ ih =>
    exact ih (hordered.record fun _ hj => hordered.lt_of_renames hu hj) (hm.record hordered _)

/-- Where no two usages are equal, the walk leaves them as they are. -/
theorem Walk.unchanged {us us' : List (Usage V)} (h : Walk m us us' m') (hm : m.Sourced)
    (hordered : m.Ordered) (hself : ∀ i < m.tape.valueCount, m.value? i = some i)
    (hdistinct : (Usage.keys (m.tape.usages ++ us)).Nodup) :
    us' = us ∧ ∀ i < m'.tape.valueCount, m'.value? i = some i := by
  induction h with
  | nil => exact ⟨rfl, hself⟩
  | @cons m m' u u' us us' hu _ ih =>
    have hlt {i j : Nat} (hij : m.value? i = some j) : i < m.tape.valueCount :=
      hordered.size ▸ (Array.getElem?_eq_some_iff.mp hij).1
    have hsame : Usage.Renames some some u u' :=
      hu.transfer (fun i _ j hij => (hself i (hlt hij)).symm.trans hij) fun _ _ _ hw => hw
    obtain rfl : u = u' := Option.some.inj ((Usage.rename?_eq_some_iff.mpr (.refl u)).symm.trans
      (Usage.rename?_eq_some_iff.mpr hsame))
    have hsource : m.source u = m.tape.valueCount := by
      rcases m.source_cases u with hsource | ⟨hmerge, hseen⟩
      · exact hsource
      · rw [Usage.keys_append] at hdistinct
        have hkey : u.ordered ∈ Usage.keys (u :: us) :=
          Usage.mem_keys.mpr ⟨u, List.mem_cons_self, hmerge, rfl⟩
        exact absurd rfl ((List.nodup_append.mp hdistinct).2.2 _ (hm.mem_keys hseen) _ hkey)
    have husages : (m.record u).tape.usages ++ us = m.tape.usages ++ u :: us := by
      rw [tape_record, Tape.usages_push, List.append_assoc, List.singleton_append]
    refine (ih (hm.record hordered u) (hordered.record fun _ hj => hordered.lt_of_renames hu hj)
      (fun i hi => ?_) (husages ▸ hdistinct)).imp (congrArg _) fun h => h
    rcases Nat.lt_or_ge i m.tape.valueCount with hbefore | hge
    · exact value?_record_of_value? (hself i hbefore) u
    · obtain ⟨k, rfl⟩ := Nat.exists_eq_add_of_le hge
      have hk : k < u.resultCount := Nat.lt_of_add_lt_add_left hi
      rw [value?_record_add hordered hk, hsource]

end Merge

namespace Tape

variable [Scalar V] [DecidableEq V] {t t' : Tape V}

/-- Merging changes nothing where no two usages are equal. -/
theorem WellFormed.mergeEqual_of_nodup (ht : t.WellFormed) (h : (Usage.keys t.usages).Nodup) :
    t.mergeEqual = .ok t := by
  obtain ⟨t', hmerge⟩ := ht.exists_mergeEqual
  obtain ⟨us', m, deps, hwalk, hdeps, rfl⟩ := mergeEqual_eq_ok_iff.mp hmerge
  obtain ⟨rfl, hself⟩ := hwalk.unchanged (Merge.sourced_start t) (Merge.ordered_start t)
    (fun i hi => (Merge.value?_start t).mpr ⟨hi, rfl⟩) h
  have hbody : m.tape.body = t.body := Array.ext' hwalk.body_eq
  have hsame : t.deps.mapM (fun values => values.mapM m.value?) = some t.deps := by
    cases hset : t.deps with
    | none => rfl
    | some values =>
      have hvalues : values.mapM m.value? = some values := by
        rw [mapM_eq_some_iff]
        refine List.map_congr_left fun i hi => hself i ?_
        rw [valueCount_of_walk hwalk]
        exact ht.dependents i (by rwa [Tape.dependents, hset])
      simp [hvalues]
  obtain rfl := Option.some.inj (hsame.symm.trans hdeps)
  refine hmerge.trans (congrArg _ ?_)
  exact Tape.ext hwalk.inherits.1 hwalk.inherits.2 hbody rfl

end Tape

/-! ## Readers and sources -/

namespace Usage

/-- Who reads the results of the usage at position `l` reads those at position `k` once usages are
merged: those of the first of its equals, or its own if it cannot be merged. -/
inductive ReadFrom (placed : List (Place × Usage V)) (k l : Nat) : Prop
  | source {p q : Place} {w : Usage V} (hl : placed[l]? = some (q, w)) (hw : w.isMergeable = true)
      (h : IsSource placed k p w) : ReadFrom placed k l
  | self {q : Place} {w : Usage V} (hl : placed[l]? = some (q, w)) (hw : w.isMergeable = false)
      (h : k = l) : ReadFrom placed k l

namespace ReadFrom

variable {placed : List (Place × Usage V)} {k k' l : Nat} {p q : Place} {u w : Usage V}

theorem exists_placed (h : ReadFrom placed k l) : ∃ p u, placed[k]? = some (p, u) := by
  cases h with
  | source _ _ h =>
    obtain ⟨u, hk, -⟩ := h.found
    exact ⟨_, u, hk⟩
  | self hl _ h => exact ⟨_, _, h ▸ hl⟩

/-- Whatever a usage is read from is read from itself. -/
theorem source_self (h : ReadFrom placed k l) : ReadFrom placed k k := by
  cases h with
  | source _ hw h =>
    obtain ⟨u, hk, hu⟩ := h.found
    exact .source hk ((isMergeable_of_ordered_eq hu).trans hw) (h.congr hu.symm)
  | self hl hw h =>
    subst h
    exact .self hl hw rfl

/-- No usage is read from two others. -/
theorem unique (h : ReadFrom placed k l) (h' : ReadFrom placed k' l) : k = k' := by
  cases h with
  | source hl hw h =>
    cases h' with
    | source hl' _ h' =>
      obtain ⟨rfl, rfl⟩ := Prod.mk.inj (Option.some.inj (hl.symm.trans hl'))
      obtain ⟨u, hk, hu⟩ := h.found
      obtain ⟨u', hk', hu'⟩ := h'.found
      exact Nat.le_antisymm (h.least hk' hu') (h'.least hk hu)
    | self hl' hw' =>
      obtain ⟨rfl, rfl⟩ := Prod.mk.inj (Option.some.inj (hl.symm.trans hl'))
      cases hw.symm.trans hw'
  | self hl hw h =>
    cases h' with
    | source hl' hw' =>
      obtain ⟨rfl, rfl⟩ := Prod.mk.inj (Option.some.inj (hl.symm.trans hl'))
      cases hw.symm.trans hw'
    | self _ _ h' => exact h.trans h'.symm

theorem ordered_eq (h : ReadFrom placed k l) (hk : placed[k]? = some (p, u))
    (hl : placed[l]? = some (q, w)) : u.ordered = w.ordered := by
  cases h with
  | source hl' _ h =>
    obtain ⟨rfl, rfl⟩ := Prod.mk.inj (Option.some.inj (hl.symm.trans hl'))
    obtain ⟨u', hk', hu'⟩ := h.found
    obtain ⟨rfl, rfl⟩ := Prod.mk.inj (Option.some.inj (hk.symm.trans hk'))
    exact hu'
  | self _ _ h =>
    subst h
    obtain ⟨rfl, rfl⟩ := Prod.mk.inj (Option.some.inj (hk.symm.trans hl))
    rfl

/-- No equal usage stands in front of the one that is read. -/
theorem least (h : ReadFrom placed k l) (hl : placed[l]? = some (q, w)) (hw : w.isMergeable = true)
    (hk : placed[k']? = some (p, u)) (heq : u.ordered = w.ordered) : k ≤ k' := by
  cases h with
  | source hl' _ h =>
    obtain ⟨rfl, rfl⟩ := Prod.mk.inj (Option.some.inj (hl.symm.trans hl'))
    exact h.least hk heq
  | self hl' hnot =>
    obtain ⟨rfl, rfl⟩ := Prod.mk.inj (Option.some.inj (hl.symm.trans hl'))
    cases hw.symm.trans hnot

/-- A usage that cannot be merged is read from itself alone. -/
theorem eq_of_not (h : ReadFrom placed k l) (hk : placed[k]? = some (p, u))
    (hu : u.isMergeable = false) : l = k := by
  cases h with
  | source hl hw h =>
    have hsame := isMergeable_of_ordered_eq ((source hl hw h).ordered_eq hk hl)
    rw [hu, hw] at hsame
    cases hsame
  | self _ _ h => exact h.symm

/-- Copies of a registered function are equal. -/
theorem eq_of_foreign {family : Family} {id callId n : Nat} {inputs : List Nat}
    (h : ReadFrom placed k l) (hk : placed[k]? = some (p, .foreign family id callId n inputs))
    (hl : placed[l]? = some (q, w)) : w = .foreign family id callId n inputs := by
  rcases ordered_eq_iff.mp (h.ordered_eq hk hl) with heq | ⟨_, _, _, _, hbinary, _⟩
  · exact heq.symm
  · cases hbinary

end ReadFrom

end Usage

theorem Merge.Sourced.exists_readFrom [Scalar V] [DecidableEq V] {m : Merge V} (hm : m.Sourced)
    {i j k : Nat} {p : Place} {u : Usage V} (hi : i < m.tape.valueCount)
    (hk : m.tape.placed[k]? = some (p, u)) (hj : j < u.resultCount)
    (hij : m.value? i = some (p.first + j)) : ∃ l q w, m.tape.placed[l]? = some (q, w) ∧
      Usage.ReadFrom m.tape.placed k l ∧ i = q.first + j := by
  have hfirst : m.tape.indCount ≤ p.first := Usage.first_le_of_placed hk
  rcases Nat.lt_or_ge i m.tape.indCount with hbefore | hge
  · have hsame := Option.some.inj ((hm.independents i hbefore).symm.trans hij)
    omega
  · obtain ⟨l, q, w, j', hl, hj', rfl⟩ := Tape.exists_placed hge hi
    cases hw : w.isMergeable with
    | false =>
      have hsame := Option.some.inj ((hm.self hl hw j' hj').symm.trans hij)
      obtain ⟨rfl, rfl⟩ := Usage.eq_of_results hl hk hj' hj hsame
      exact ⟨l, q, w, hl, .self hl hw rfl, rfl⟩
    | true =>
      obtain ⟨k', p', hsource, -, hvalue⟩ := hm.source hl hw
      obtain ⟨u', hk', hu'⟩ := hsource.found
      have hsame := Option.some.inj ((hvalue j' hj').symm.trans hij)
      have hcount := Usage.resultCount_of_ordered_eq hu'
      obtain ⟨rfl, rfl⟩ := Usage.eq_of_results hk' hk (hcount ▸ hj') hj hsame
      exact ⟨l, q, w, hl, .source hl hw hsource, rfl⟩

/-- The results of every usage are those of one that it is read from. -/
theorem Merge.Sourced.exists_source [Scalar V] [DecidableEq V] {m : Merge V} (hm : m.Sourced)
    {l : Nat} {q : Place} {w : Usage V} (hl : m.tape.placed[l]? = some (q, w)) :
    ∃ k p u, m.tape.placed[k]? = some (p, u) ∧ Usage.ReadFrom m.tape.placed k l ∧
      ∀ j < w.resultCount, m.value? (q.first + j) = some (p.first + j) := by
  cases hw : w.isMergeable with
  | false => exact ⟨l, q, w, hl, .self hl hw rfl, hm.self hl hw⟩
  | true =>
    obtain ⟨k, p, hsource, -, hvalue⟩ := hm.source hl hw
    obtain ⟨u, hk, -⟩ := hsource.found
    exact ⟨k, p, u, hk, .source hl hw hsource, hvalue⟩

namespace Tape

variable [Scalar V]

/-- The usages of `t'` are those of `t`, one by one, with each value that is read replaced through
the table by the one that it is read from. -/
structure Merges (t t' : Tape V) (value : Nat → Option Nat) : Prop where
  indCount_eq : t'.indCount = t.indCount
  options_eq : t'.options = t.options
  dependents : t.dependents.mapM value = some t'.dependents
  zero : value t.zeroIndex = some t.zeroIndex
  independents : ∀ i < t.indCount, value i = some i
  usages : List.Forall₂ (Usage.Renames value some) t.usages t'.usages
  placed : ∀ {k : Nat} {p : Place} {u' : Usage V}, t'.placed[k]? = some (p, u') →
    ∃ u, t.placed[k]? = some (p, u) ∧ Usage.Renames value some u u'
  results : ∀ {l : Nat} {q : Place} {w : Usage V}, t'.placed[l]? = some (q, w) →
    ∃ k p u, t'.placed[k]? = some (p, u) ∧ Usage.ReadFrom t'.placed k l ∧
      ∀ j < w.resultCount, value (q.first + j) = some (p.first + j)
  source : ∀ {i j k : Nat} {p : Place} {u : Usage V}, t'.placed[k]? = some (p, u) → j < u.resultCount →
    value i = some (p.first + j) → ∃ l q w, t'.placed[l]? = some (q, w) ∧
      Usage.ReadFrom t'.placed k l ∧ i = q.first + j
  settled : ∀ {i j : Nat}, value i = some j → value j = some j

theorem merges_of_mergeEqual [DecidableEq V] {t t' : Tape V} (h : t.mergeEqual = .ok t') :
    ∃ value, t.Merges t' value := by
  obtain ⟨us', m, deps, hwalk, hdeps, rfl⟩ := mergeEqual_eq_ok_iff.mp h
  have hplace : m.tape.zeroPlace = t.zeroPlace := congrArg (Place.mk · 0) hwalk.inherits.1
  have hordered := hwalk.ordered (Merge.ordered_start t)
  have hsourced := hwalk.sourced (Merge.ordered_start t) (Merge.sourced_start t)
  have hlt {i j : Nat} (hij : m.value? i = some j) : i < m.tape.valueCount :=
    hordered.size ▸ (Array.getElem?_eq_some_iff.mp hij).1
  refine ⟨m.value?, hwalk.inherits.1, hwalk.inherits.2, mapM_dependents hdeps, ?_, fun i hi => ?_,
    hwalk.renames_usages, fun {k p u'} hk => ?_, fun hl => hsourced.exists_source hl,
    fun hk hj hij => hsourced.exists_readFrom (hlt hij) hk hj hij, fun hij => ?_⟩
  · exact hwalk.value?_mono ((Merge.value?_start t).mpr ⟨Nat.lt_succ_self _, rfl⟩)
  · exact hsourced.independents i (hwalk.inherits.1 ▸ hi)
  · have hk' : (Usage.placed t.zeroPlace m.tape.usages)[k]? = some (p, u') := hplace ▸ hk
    exact Usage.exists_placed_of_forall₂ hwalk.renames_usages
      (fun _ _ hu => hu.resultCount_eq) (fun _ _ hu => hu.startsVector_eq) hk'
  · exact (numbered_of_walk hwalk).indexed.value_value (hlt hij) hij

theorem Merges.exists_of_mem {t t' : Tape V} {value : Nat → Option Nat} (h : t.Merges t' value)
    {u' : Usage V} (hu' : u' ∈ t'.usages) : ∃ u ∈ t.usages, u'.kind = u.kind := by
  obtain ⟨k, p, hp⟩ := exists_placed_of_mem hu'
  obtain ⟨u, hu, hrenames⟩ := h.placed hp
  exact ⟨u, mem_usages_of_placed hu, hrenames.kind_eq⟩

/-- A later copy is not read: its results are those of the first one. -/
theorem Merges.ne_self {t t' : Tape V} {value : Nat → Option Nat} (h : t.Merges t' value)
    {j k l : Nat} {p q : Place} {u w : Usage V} (hkl : k < l) (hk : t'.placed[k]? = some (p, u))
    (hl : t'.placed[l]? = some (q, w)) (hw : w.isMergeable = true) (heq : u.ordered = w.ordered)
    (hj : j < w.resultCount) : value (q.first + j) ≠ some (q.first + j) := by
  intro hself
  obtain ⟨l', q', w', hl', hfrom, hfirst⟩ := h.source hl hj hself
  have hcount := Usage.resultCount_of_ordered_eq (hfrom.ordered_eq hl hl')
  obtain ⟨rfl, -⟩ := Usage.eq_of_results hl hl' hj (hcount ▸ hj) hfirst
  exact absurd hkl (Nat.not_lt_of_le (hfrom.least hl hw hk heq))

end Tape

end OpTape
