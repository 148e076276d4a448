import OpTape.Proofs.Gathering
import OpTape.Proofs.Keeping
/-
  Fusing sums cannot fail. A sum is taken off the tape only when it has exactly one reader, one
  that adds. `Single` counts the readers that are left: a pending value has one, and it adds; a
  value to come has those that were counted for the whole tape. So whoever reads a pending value
  gathers it, and it is never asked for again. `Waits` adds where the values are: whatever is
  still read is on the new tape or pending, and the terms of what is pending are on the new tape.
-/
namespace OpTape

variable {V : Type}

namespace Terms

theorem reads_of_ofUsage? {u : Usage V} {t : Terms} (h : ofUsage? u = some t) :
    u.reads = t.all ∧ u.args = t.all := by
  unfold ofUsage? at h
  split at h
  all_goals first
    | obtain rfl := Option.some.inj h
      exact ⟨by simp [Usage.reads, Usage.args, Usage.initials, all], rfl⟩
    | cases h

theorem counts_of_ofUsage? {u : Usage V} {t : Terms} (h : ofUsage? u = some t) :
    u.resultCount = 1 ∧ u.startsVector = false := by
  unfold ofUsage? at h
  split at h
  all_goals first
    | exact ⟨rfl, rfl⟩
    | cases h

end Terms

namespace Usage

/-- The values that a usage adds up, if it adds. -/
def adds (u : Usage V) : List Nat :=
  match Terms.ofUsage? u with
  | some t => t.all
  | none => []

theorem adds_of_ofUsage? {u : Usage V} {t : Terms} (h : Terms.ofUsage? u = some t) :
    u.adds = t.all := by
  rw [adds, h]

/-- What is read from some usage on, by the dependents in the end. -/
def readsFrom (deps : List Nat) (us : List (Usage V)) : List Nat := us.flatMap reads ++ deps

/-- What is added up from some usage on. -/
def addsFrom (us : List (Usage V)) : List Nat := us.flatMap adds

theorem count_readsFrom_cons (deps : List Nat) (u : Usage V) (us : List (Usage V)) (i : Nat) :
    (readsFrom deps (u :: us)).count i = u.reads.count i + (readsFrom deps us).count i := by
  simp [readsFrom]

theorem count_addsFrom_cons (u : Usage V) (us : List (Usage V)) (i : Nat) :
    (addsFrom (u :: us)).count i = u.adds.count i + (addsFrom us).count i := by
  simp [addsFrom]

theorem count_adds_le (u : Usage V) (i : Nat) : u.adds.count i ≤ u.reads.count i := by
  unfold adds
  split
  · rename_i t ht
    rw [(Terms.reads_of_ofUsage? ht).1]
  · simp

theorem mem_reads_of_mem_adds {u : Usage V} {i : Nat} (hi : i ∈ u.adds) : i ∈ u.reads := by
  have hle := u.count_adds_le i
  have hpos := List.count_pos_iff.mpr hi
  exact List.count_pos_iff.mp (by omega)

theorem count_addsFrom_le (deps : List Nat) (us : List (Usage V)) (i : Nat) :
    (addsFrom us).count i ≤ (readsFrom deps us).count i := by
  induction us with
  | nil => simp [addsFrom]
  | cons u us ih =>
    have hone := count_adds_le u i
    rw [count_addsFrom_cons, count_readsFrom_cons]
    omega

theorem flatMap_args_filter (us : List (Usage V)) :
    (us.filter fun u => (Terms.ofUsage? u).isSome).flatMap args = addsFrom us := by
  induction us with
  | nil => rfl
  | cons u us ih =>
    show _ = u.adds ++ addsFrom us
    rw [← ih]
    cases hu : Terms.ofUsage? u with
    | none => rw [List.filter_cons_of_neg (by simp [hu]), adds, hu, List.nil_append]
    | some t =>
      rw [List.filter_cons_of_pos (by simp [hu]), List.flatMap_cons, adds_of_ofUsage? hu,
        (Terms.reads_of_ofUsage? hu).2]

end Usage

/-- The readers of a tape are those that its usages and dependents make. -/
theorem Readers.count_ofTape (t : Tape V) {i : Nat} (hi : i < t.valueCount) :
    (ofTape t).all.count i = (Usage.readsFrom t.dependents t.body.toList).count i ∧
      (ofTape t).additive.count i = (Usage.addsFrom t.body.toList).count i := by
  refine ⟨Tally.count_ofList _ hi, ?_⟩
  rw [← Usage.flatMap_args_filter]
  exact Tally.count_ofList _ hi

namespace Pending

/-- What the walk does with one usage: the terms that are pending behind it, and the action. -/
inductive Visited (readers : Readers) (pending : Pending) (u : Usage V) : Pending → Action V → Prop
  | copied (hu : Terms.ofUsage? u = none) : Visited readers pending u
      (pending ++ List.replicate u.resultCount (none : Option Terms) : Array (Option Terms)) .copy
  | taken {t : Terms} (hu : Terms.ofUsage? u = some t)
      (habsorbs : readers.absorbs pending.size = true) :
      Visited readers pending u
        ((pending.gatherAll t).pending.push (some (pending.gatherAll t).terms)) .drop
  | fused {t : Terms} (hu : Terms.ofUsage? u = some t) :
      Visited readers pending u ((pending.gatherAll t).pending.push none)
        (.sum (pending.gatherAll t).terms.add (pending.gatherAll t).terms.sub)
  | kept {t : Terms} (hu : Terms.ofUsage? u = some t)
      (hnone : ∀ i ∈ t.all, pending.terms? i = none) :
      Visited readers pending u ((pending.gatherAll t).pending.push none) .copy

section

variable {readers : Readers} {pending pending' : Pending} {u : Usage V} {us : List (Usage V)}
  {action : Action V}

theorem visited_of_visit (h : pending.visit readers u = (pending', action)) :
    Visited readers pending u pending' action := by
  unfold visit at h
  split at h
  · rename_i hu
    obtain ⟨rfl, rfl⟩ := Prod.mk.inj h
    exact .copied hu
  · rename_i t hu
    simp only at h
    split at h
    · rename_i habsorbs
      obtain ⟨rfl, rfl⟩ := Prod.mk.inj h
      exact .taken hu habsorbs
    · obtain ⟨rfl, rfl⟩ := Prod.mk.inj h
      split
      · exact .fused hu
      · rename_i habsorbed
        exact .kept hu (terms?_of_not_absorbed (Bool.eq_false_iff.mpr habsorbed))

theorem walk_cons_eq {actions : List (Action V)}
    (h : walk readers pending (u :: us) = action :: actions) :
    ∃ pending', Visited readers pending u pending' action ∧
      walk readers pending' us = actions := by
  have hwalk : (pending.visit readers u).2 :: walk readers (pending.visit readers u).1 us
      = action :: actions := h
  obtain ⟨haction, hrest⟩ := List.cons.inj hwalk
  exact ⟨_, visited_of_visit (Prod.ext rfl haction), hrest⟩

theorem length_walk (readers : Readers) (pending : Pending) (us : List (Usage V)) :
    (walk readers pending us).length = us.length := by
  induction us generalizing pending with
  | nil => rfl
  | cons u us ih => exact congrArg (· + 1) (ih _)

theorem Visited.suits (h : Visited readers pending u pending' action) : action.Suits u := by
  cases h with
  | copied | kept => exact ⟨fun _ => rfl, by simp, by simp⟩
  | taken hu =>
    have hplain := (Terms.counts_of_ofUsage? hu).2
    exact ⟨by simp [hplain], by simp, by simp⟩
  | fused hu =>
    obtain ⟨hcount, hplain⟩ := Terms.counts_of_ofUsage? hu
    exact ⟨by simp [hplain], by simp, fun _ _ _ => hcount⟩

theorem Visited.size_eq (h : Visited readers pending u pending' action) :
    pending'.size = pending.size + u.resultCount := by
  cases h with
  | copied => simp [append_list_eq]
  | taken hu | fused hu | kept hu =>
    rw [Array.size_push, size_gatherAll, (Terms.counts_of_ofUsage? hu).1]

/-- What is pending behind a usage was pending before and is not added up by it, or is the sum
that was just taken off. -/
theorem Visited.terms?_cases (h : Visited readers pending u pending' action) {i : Nat} {s : Terms}
    (hs : pending'.terms? i = some s) :
    (pending.terms? i = some s ∧ i ∉ u.adds) ∨
      (i = pending.size ∧ readers.absorbs i = true ∧
        ∃ t, Terms.ofUsage? u = some t ∧ s = (pending.gatherAll t).terms) := by
  have hgathered {t : Terms} (hu : Terms.ofUsage? u = some t)
      (hold : (pending.gatherAll t).pending.terms? i = some s) :
      pending.terms? i = some s ∧ i ∉ u.adds := by
    rw [terms?_gatherAll] at hold
    rw [Usage.adds_of_ofUsage? hu]
    split at hold
    · cases hold
    · exact ⟨hold, by assumption⟩
  cases h with
  | copied hu =>
    rw [terms?_append_none] at hs
    exact Or.inl ⟨hs, by simp [Usage.adds, hu]⟩
  | @taken t hu habsorbs =>
    rw [terms?_push, size_gatherAll] at hs
    split at hs
    · rename_i heq
      exact Or.inr ⟨heq, heq ▸ habsorbs, t, hu, (Option.some.inj hs).symm⟩
    · exact Or.inl (hgathered hu hs)
  | fused hu | kept hu =>
    rw [terms?_push, size_gatherAll] at hs
    split at hs
    · cases hs
    · exact Or.inl (hgathered hu hs)

/-- What is not added up goes on pending. -/
theorem Visited.terms?_of_not_mem (h : Visited readers pending u pending' action) {i : Nat}
    (hi : i < pending.size) (hu : i ∉ u.adds) : pending'.terms? i = pending.terms? i := by
  cases h with
  | copied => exact terms?_append_none pending _ i
  | taken hu' | fused hu' | kept hu' =>
    rw [Usage.adds_of_ofUsage? hu'] at hu
    rw [terms?_push, size_gatherAll, if_neg (Nat.ne_of_lt hi), terms?_gatherAll, if_neg hu]

/-- The readers that are left: one of a pending value, and it adds; of a value to come, those
that were counted. -/
structure Single (readers : Readers) (deps : List Nat) (count : Nat) (pending : Pending)
    (us : List (Usage V)) : Prop where
  once : ∀ {i t}, pending.terms? i = some t →
    (Usage.readsFrom deps us).count i = 1 ∧ (Usage.addsFrom us).count i = 1
  counted : ∀ {i}, pending.size ≤ i → i < count →
    readers.all.count i = (Usage.readsFrom deps us).count i ∧
      readers.additive.count i = (Usage.addsFrom us).count i

namespace Single

variable {deps : List Nat} {count : Nat}

/-- The reader of a pending value adds it up, once, and nobody reads it later. -/
theorem of_mem_reads (h : Single readers deps count pending (u :: us)) {i : Nat} {t : Terms}
    (hi : pending.terms? i = some t) (hmem : i ∈ u.reads) :
    i ∈ u.adds ∧ u.adds.count i = 1 ∧ i ∉ Usage.readsFrom deps us := by
  obtain ⟨hreads, hadds⟩ := h.once hi
  rw [Usage.count_readsFrom_cons] at hreads
  rw [Usage.count_addsFrom_cons] at hadds
  have hpos := List.count_pos_iff.mpr hmem
  have hle := Usage.count_addsFrom_le deps us i
  have hone : u.adds.count i = 1 := by omega
  have hzero : (Usage.readsFrom deps us).count i = 0 := by omega
  exact ⟨List.count_pos_iff.mp (by omega), hone, List.count_eq_zero.mp hzero⟩

theorem step (h : Single readers deps count pending (u :: us))
    (hv : Visited readers pending u pending' action) (hreads : ∀ i ∈ u.reads, i < pending.size)
    (hcount : pending.size + u.resultCount ≤ count) :
    Single readers deps count pending' us := by
  -- a usage that does not read a value leaves its counts alone
  have hsame {i : Nat} (hi : i ∉ u.reads) :
      (Usage.readsFrom deps (u :: us)).count i = (Usage.readsFrom deps us).count i ∧
        (Usage.addsFrom (u :: us)).count i = (Usage.addsFrom us).count i := by
    have hzero := List.count_eq_zero.mpr hi
    have hle := Usage.count_adds_le u i
    rw [Usage.count_readsFrom_cons, Usage.count_addsFrom_cons]
    omega
  have hbehind {i : Nat} (hi : pending.size ≤ i) : i ∉ u.reads := fun hmem =>
    Nat.not_lt.mpr hi (hreads i hmem)
  constructor
  · intro i s hs
    rcases hv.terms?_cases hs with ⟨hold, hnot⟩ | ⟨rfl, habsorbs, t, hu, -⟩
    · obtain ⟨hr, ha⟩ := h.once hold
      obtain ⟨hr', ha'⟩ := hsame fun hmem => hnot (h.of_mem_reads hold hmem).1
      exact ⟨hr'.symm.trans hr, ha'.symm.trans ha⟩
    · have hone := (Terms.counts_of_ofUsage? hu).1
      obtain ⟨hall, hadditive⟩ := h.counted (Nat.le_refl _) (by omega)
      obtain ⟨hr', ha'⟩ := hsame (hbehind (Nat.le_refl _))
      rw [Readers.absorbs, Bool.and_eq_true, beq_iff_eq, beq_iff_eq] at habsorbs
      exact ⟨by omega, by omega⟩
  · intro i hi hlt
    rw [hv.size_eq] at hi
    have hge : pending.size ≤ i := by omega
    obtain ⟨hall, hadditive⟩ := h.counted hge hlt
    obtain ⟨hr', ha'⟩ := hsame (hbehind hge)
    exact ⟨hall.trans hr', hadditive.trans ha'⟩

end Single

end

/-- Whatever is still read is on the new tape or pending, and the terms of what is pending are on
the new tape. -/
structure Waits (readers : Readers) (deps : List Nat) (count : Nat) (pending : Pending)
    (us : List (Usage V)) (b : Rebuild V) : Prop where
  ready : Rebuild.Ready count b us
  size : pending.size = b.values.size
  single : Single readers deps count pending us
  there : ∀ {i}, i ∈ Usage.readsFrom deps us → i < b.values.size →
    (∃ j, b.value? i = some j) ∨ ∃ t, pending.terms? i = some t
  terms : ∀ {i t}, pending.terms? i = some t → ∀ k ∈ t.all, ∃ j, b.value? k = some j

namespace Waits

section

variable {readers : Readers} {deps : List Nat} {count : Nat} {pending pending' : Pending}
  {u : Usage V} {us : List (Usage V)} {action : Action V} {b b' : Rebuild V}

theorem lt_of_mem_reads (h : Waits readers deps count pending (u :: us) b) {i : Nat}
    (hi : i ∈ u.reads) : i < b.values.size :=
  h.ready.fit.1.1 i hi

/-- What is read is there, or it is pending, added up here and nowhere else. -/
theorem of_mem_reads (h : Waits readers deps count pending (u :: us) b) {i : Nat}
    (hi : i ∈ u.reads) : (∃ j, b.value? i = some j) ∨
      ∃ t, pending.terms? i = some t ∧ i ∈ u.adds ∧ u.adds.count i = 1 := by
  have hfrom : i ∈ Usage.readsFrom deps (u :: us) := by
    simp [Usage.readsFrom, hi]
  rcases h.there hfrom (h.lt_of_mem_reads hi) with hj | ⟨t, ht⟩
  · exact Or.inl hj
  · obtain ⟨hmem, hone, -⟩ := h.single.of_mem_reads ht hi
    exact Or.inr ⟨t, ht, hmem, hone⟩

/-- What a sum gathers is on the new tape. -/
theorem gathered (h : Waits readers deps count pending (u :: us) b) {t : Terms}
    (hu : Terms.ofUsage? u = some t) :
    ∀ k ∈ (pending.gatherAll t).terms.all, ∃ j, b.value? k = some j := by
  refine mem_gatherAll (fun hi k hk => h.terms hi k hk) fun i hi => ?_
  have hmem : i ∈ u.reads := by rwa [(Terms.reads_of_ofUsage? hu).1]
  rcases h.of_mem_reads hmem with hj | ⟨s, hs, -, hone⟩
  · exact Or.inl hj
  · rw [Usage.adds_of_ofUsage? hu] at hone
    exact Or.inr ⟨Option.isSome_of_eq_some hs, hone⟩

/-- Every action of the walk can be carried out. -/
theorem exists_step (h : Waits readers deps count pending (u :: us) b) (hb : b.Bounded)
    (hv : Visited readers pending u pending' action) : ∃ b', Rebuild.Step b u action b' := by
  have hcopy (hvalue : ∀ i ∈ u.reads, ∃ j, b.value? i = some j) :
      ∃ b', Rebuild.Step b u .copy b' := by
    obtain ⟨new, hnew, hadmits⟩ := Rebuild.exists_carried hb hvalue fun w hw => h.ready.vector hw
    exact ⟨_, .copy hnew hadmits⟩
  cases hv with
  | copied hu =>
    refine hcopy fun i hi => ?_
    rcases h.of_mem_reads hi with hj | ⟨t, -, hmem, -⟩
    · exact hj
    · simp [Usage.adds, hu] at hmem
  | taken => exact ⟨_, .drop⟩
  | @fused t hu =>
    have hterms := h.gathered hu
    obtain ⟨add, hadd⟩ := exists_mapM_some fun k hk => hterms k (List.mem_append_left _ hk)
    obtain ⟨sub, hsub⟩ := exists_mapM_some fun k hk => hterms k (List.mem_append_right _ hk)
    refine ⟨_, .sum hadd hsub ⟨fun j hj => ?_, by simp [Usage.vector?]⟩⟩
    have hj' : j ∈ add ∨ j ∈ sub := by simpa [Usage.reads, Usage.args, Usage.initials] using hj
    rcases hj' with hj' | hj'
    · obtain ⟨i, -, hij⟩ := exists_of_mem_mapM hadd hj'
      exact hb.value hij
    · obtain ⟨i, -, hij⟩ := exists_of_mem_mapM hsub hj'
      exact hb.value hij
  | kept hu hnone =>
    refine hcopy fun i hi => ?_
    rcases h.of_mem_reads hi with hj | ⟨s, hs, hmem, -⟩
    · exact hj
    · rw [Usage.adds_of_ofUsage? hu] at hmem
      rw [hnone i hmem] at hs
      cases hs

/-- What is still read behind a usage was there or pending before, and goes on so. -/
theorem there_of_lt (h : Waits readers deps count pending (u :: us) b)
    (hv : Visited readers pending u pending' action) {i : Nat} (hi : i ∈ Usage.readsFrom deps us)
    (hlt : i < b.values.size) :
    (∃ j, b.value? i = some j) ∨ ∃ t, pending'.terms? i = some t := by
  have hfrom : i ∈ Usage.readsFrom deps (u :: us) := by
    simp only [Usage.readsFrom, List.flatMap_cons, List.mem_append] at hi ⊢
    rcases hi with hi | hi
    · exact Or.inl (Or.inr hi)
    · exact Or.inr hi
  rcases h.there hfrom hlt with hj | ⟨t, ht⟩
  · exact Or.inl hj
  · right
    refine ⟨t, (hv.terms?_of_not_mem (h.size ▸ hlt) fun hmem => ?_).trans ht⟩
    -- what is added up here has no reader left
    exact (h.single.of_mem_reads ht (Usage.mem_reads_of_mem_adds hmem)).2.2 hi

/-- The result of a usage is on the new tape, or it is the sum that was just taken off. -/
theorem there_of_ge (h : Waits readers deps count pending (u :: us) b)
    (hv : Visited readers pending u pending' action) (hstep : Rebuild.Step b u action b') {i : Nat}
    (hge : b.values.size ≤ i) (hlt : i < b'.values.size) :
    (∃ j, b'.value? i = some j) ∨ ∃ t, pending'.terms? i = some t := by
  have hsize := h.size
  have hgrown := hstep.size_values hv.suits
  cases hv with
  | copied | fused | kept => exact Or.inl (hstep.exists_value? (by simp) hge hlt)
  | @taken t hu =>
    have hone := (Terms.counts_of_ofUsage? hu).1
    right
    refine ⟨(pending.gatherAll t).terms, ?_⟩
    rw [terms?_push, size_gatherAll, if_pos (by omega)]

theorem step (h : Waits readers deps count pending (u :: us) b)
    (hv : Visited readers pending u pending' action) (hstep : Rebuild.Step b u action b') :
    Waits readers deps count pending' us b' := by
  have hsize := h.size
  have hgrown := hstep.size_values hv.suits
  have hfits := h.ready.size
  rw [Usage.resultTotal_cons] at hfits
  have hstays {k : Nat} (hk : ∃ j, b.value? k = some j) : ∃ j, b'.value? k = some j := by
    obtain ⟨j, hj⟩ := hk
    exact ⟨j, (hstep.value?_of_lt (Rebuild.lt_of_value? hj)).trans hj⟩
  refine ⟨h.ready.step hstep hv.suits, by rw [hv.size_eq, hgrown, hsize], ?_, ?_, ?_⟩
  · refine h.single.step hv (fun i hi => ?_) (by omega)
    rw [hsize]
    exact h.lt_of_mem_reads hi
  · intro i hi hlt
    by_cases hold : i < b.values.size
    · exact (h.there_of_lt hv hi hold).imp hstays id
    · exact h.there_of_ge hv hstep (Nat.le_of_not_lt hold) hlt
  · intro i s hs k hk
    rcases hv.terms?_cases hs with ⟨hold, -⟩ | ⟨-, -, t, hu, rfl⟩
    · exact hstays (h.terms hold k hk)
    · exact hstays (h.gathered hu k hk)

end

theorem start {t : Tape V} (ht : t.WellFormed) :
    Waits (.ofTape t) t.dependents t.valueCount (Array.replicate (t.indCount + 1) none)
      t.body.toList (.start t) := by
  have hsize : (Rebuild.start t).values.size = t.indCount + 1 := by simp [Rebuild.start]
  refine ⟨Rebuild.ready_start ht, by rw [hsize, Array.size_replicate], ?_, ?_, ?_⟩
  · exact ⟨fun hs => absurd hs (terms?_replicate_none_ne _ _ _),
      fun _ hi => Readers.count_ofTape t hi⟩
  · exact fun _ hi => Or.inl (Rebuild.total_start t _ hi)
  · exact fun hs => absurd hs (terms?_replicate_none_ne _ _ _)

end Waits

end Pending

namespace Tape

theorem fuseSums_eq (t : Tape V) :
    t.fuseSums = t.rebuild (Pending.walk (.ofTape t) (Array.replicate (t.indCount + 1) none)
      t.body.toList) := rfl

/-- Fusing sums cannot fail. -/
theorem WellFormed.exists_fuseSums {t : Tape V} (ht : t.WellFormed) :
    ∃ t', t.fuseSums = .ok t' := by
  have hlength := Pending.length_walk (.ofTape t) (Array.replicate (t.indCount + 1) none)
    t.body.toList
  rw [fuseSums_eq]
  refine exists_rebuild (fun plan b => ∃ pending : Pending,
    Pending.walk (.ofTape t) pending (plan.map Prod.fst) = plan.map Prod.snd ∧
      Pending.Waits (.ofTape t) t.dependents t.valueCount pending (plan.map Prod.fst) b)
    hlength ?_ ?_ ?_
  · refine ⟨Array.replicate (t.indCount + 1) none, ?_, ?_⟩
    · rw [List.map_fst_zip (by omega), List.map_snd_zip (by omega)]
    · rw [List.map_fst_zip (by omega)]
      exact .start ht
  · rintro u action plan b ⟨pending, hwalk, hwaits⟩ hb
    obtain ⟨pending', hv, hrest⟩ := Pending.walk_cons_eq hwalk
    obtain ⟨b', hb'⟩ := hwaits.exists_step hb hv
    exact ⟨b', hb', pending', hrest, hwaits.step hv hb'⟩
  · rintro b ⟨pending, -, hwaits⟩ i hi
    have hsize : b.values.size = t.valueCount := hwaits.ready.size
    rcases hwaits.there hi (hsize ▸ ht.dependents i hi) with hj | ⟨s, hs⟩
    · exact hj
    · -- nobody is left who could add a pending value up
      have hadds := (hwaits.single.once hs).2
      cases hadds

end Tape

end OpTape
