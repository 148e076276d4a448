import OpTape.Proofs.Distinct
import OpTape.Proofs.Fusing
import OpTape.Proofs.Padding
/-
  A tape inside another one. Where idle constants were put between the usages of a tape and equal
  usages were merged then, the usages of the tape stand there still, in their order, and what they
  read has one new name for each value (`Tape.Embeds`). Liveness goes along: what is needed on the
  tape is needed there under its name (`Embeds.namedNeeded`). If no two usages of the tape are
  equal, no two of its values share a name (`Embeds.injectiveBelow`), so the readers of a value are
  as many as before, and the same sums can be absorbed.
-/
namespace OpTape

variable {V : Type}

/-! ## Two renamings in a row -/

namespace Usage

variable {value value' vector vector' : Nat → Option Nat} {u w x : Usage V}

theorem map_bind {xs ys zs : List Nat} (h : xs.map value = ys.map some)
    (h' : ys.map value' = zs.map some) : xs.map (fun i => (value i).bind value') = zs.map some := by
  have hboth := congrArg (List.map (·.bind value')) h
  rw [List.map_map, List.map_map] at hboth
  exact hboth.trans h'

/-- Renaming twice is renaming once. -/
theorem Renames.trans (h : Renames value vector u w) (h' : Renames value' vector' w x) :
    Renames (fun i => (value i).bind value') (fun v => (vector v).bind vector') u x := by
  have hone {f f' : Nat → Option Nat} {i j k : Nat} (hij : f i = some j) (hjk : f' j = some k) :
      (f i).bind f' = some k := by rw [hij, Option.bind_some, hjk]
  have hlist {xs ys zs : List Nat} (hxy : xs.mapM value = some ys)
      (hyz : ys.mapM value' = some zs) : xs.mapM (fun i => (value i).bind value') = some zs :=
    mapM_eq_some_iff.mpr (map_bind (mapM_eq_some_iff.mp hxy) (mapM_eq_some_iff.mp hyz))
  cases h with
  | constant =>
    cases h'
    exact .constant _
  | unary hx =>
    cases h' with
    | unary hx' => exact .unary (hone hx hx')
  | binary hx hy =>
    cases h' with
    | binary hx' hy' => exact .binary (hone hx hx') (hone hy hy')
  | discrete hx =>
    cases h' with
    | discrete hx' => exact .discrete (hone hx hx')
  | compare hx hy =>
    cases h' with
    | compare hx' hy' => exact .compare (hone hx hx') (hone hy hy')
  | select hx hy ha hb =>
    cases h' with
    | select hx' hy' ha' hb' =>
      exact .select (hone hx hx') (hone hy hy') (hone ha ha') (hone hb hb')
  | sum hadd hsub =>
    cases h' with
    | sum hadd' hsub' => exact .sum (hlist hadd hadd') (hlist hsub hsub')
  | vector h =>
    cases h' with
    | vector h' => exact .vector (hlist h h')
  | load hv hx =>
    cases h' with
    | load hv' hx' => exact .load (hone hv hv') (hone hx hx')
  | store hv hx hy =>
    cases h' with
    | store hv' hx' hy' => exact .store (hone hv hv') (hone hx hx') (hone hy hy')
  | print hx hy =>
    cases h' with
    | print hx' hy' => exact .print (hone hx hx') (hone hy hy')
  | foreign h =>
    cases h' with
    | foreign h' => exact .foreign (hlist h h')

/-- Renaming keeps usages equal. -/
theorem Renames.ordered_congr {u' : Usage V} (hu : Renames value vector u u')
    (hw : Renames value vector w x) (h : u.ordered = w.ordered) : u'.ordered = x.ordered := by
  have hsame {v v₁ v₂ : Usage V} (h₁ : Renames value vector v v₁)
      (h₂ : Renames value vector v v₂) : v₁ = v₂ := Option.some.inj
    ((rename?_eq_some_iff.mpr h₁).symm.trans (rename?_eq_some_iff.mpr h₂))
  rcases ordered_eq_iff.mp h with rfl | ⟨op, y, z, hop, rfl, rfl⟩
  · rw [hsame hu hw]
  · cases hw with
    | @binary _ _ _ y' z' hy hz =>
      rw [hsame hu (.binary hz hy)]
      exact ordered_eq_iff.mpr (.inr ⟨op, z', y', hop, rfl, rfl⟩)

/-! ## Positions between idle constants -/

variable {back : Nat → Option Nat} {p q : Place} {us ws : List (Usage V)}

/-- The usages stand in their order, with nothing but constants in between. -/
theorem Pads.exists_position (h : Pads value back p q us ws) (hvector : p.vector = q.vector) :
    ∃ position : Nat → Nat, (∀ {k l : Nat}, k < l → position k < position l) ∧
      (∀ {k p' u}, (placed p us)[k]? = some (p', u) → ∃ q' w,
        (placed q ws)[position k]? = some (q', w) ∧ q'.vector = p'.vector ∧
          Renames value some u w ∧ ∀ j < u.resultCount, value (p'.first + j) = some (q'.first + j)) ∧
      ∀ {l q' w}, (placed q ws)[l]? = some (q', w) →
        (∃ k < us.length, position k = l) ∨ ∃ v, w = .constant v := by
  induction h with
  | nil => exact ⟨id, fun h => h, (fun h => by cases h), fun h => by cases h⟩
  | @keep p q u w us ws hu hvalue _ ih =>
    have hpast : (p.past u).vector = (q.past w).vector := by
      rw [Place.past, Place.past, hu.startsVector_eq, hvector]
    obtain ⟨position, hincreasing, hplaced, hothers⟩ := ih hpast
    refine ⟨behindFirst position, behindFirst_lt hincreasing, fun {k p' u'} hk => ?_,
      fun {l q' w'} hl => ?_⟩
    · cases k with
      | zero =>
        obtain ⟨rfl, rfl⟩ := Prod.mk.inj (Option.some.inj hk)
        exact ⟨q, w, rfl, hvector.symm, hu, hvalue⟩
      | succ k => exact hplaced hk
    · cases l with
      | zero => exact .inl ⟨0, Nat.succ_pos _, rfl⟩
      | succ l =>
        rcases hothers hl with ⟨k, hk, rfl⟩ | hconstant
        · exact .inl ⟨k + 1, Nat.succ_lt_succ hk, rfl⟩
        · exact .inr hconstant
  | @idle p q v us ws _ _ ih =>
    obtain ⟨position, hincreasing, hplaced, hothers⟩ := ih hvector
    refine ⟨fun k => position k + 1, fun hkl => Nat.succ_lt_succ (hincreasing hkl), hplaced,
      fun {l q' w'} hl => ?_⟩
    cases l with
    | zero => exact .inr ⟨v, (Prod.mk.inj (Option.some.inj hl)).2.symm⟩
    | succ l =>
      rcases hothers hl with ⟨k, hk, rfl⟩ | hconstant
      · exact .inl ⟨k, hk, rfl⟩
      · exact .inr hconstant

/-- Nothing is read but new names of what was read. -/
theorem Pads.map_reads (h : Pads value back p q us ws) :
    (us.flatMap reads).map value = (ws.flatMap reads).map some ∧
      (addsFrom us).map value = (addsFrom ws).map some := by
  induction h with
  | nil => exact ⟨rfl, rfl⟩
  | keep hu _ _ ih =>
    simp only [addsFrom, List.flatMap_cons, List.map_append] at ih ⊢
    exact ⟨by rw [hu.map_reads, ih.1], by rw [hu.map_adds, ih.2]⟩
  | idle _ _ ih => exact ih

theorem map_reads_of_forall₂ (h : List.Forall₂ (Renames value vector) us ws) :
    (us.flatMap reads).map value = (ws.flatMap reads).map some ∧
      (addsFrom us).map value = (addsFrom ws).map some := by
  induction h with
  | nil => exact ⟨rfl, rfl⟩
  | cons hu _ ih =>
    simp only [addsFrom, List.flatMap_cons, List.map_append] at ih ⊢
    exact ⟨by rw [hu.map_reads, ih.1], by rw [hu.map_adds, ih.2]⟩

end Usage

/-! ## The embedding -/

namespace Tape

variable [Scalar V] {t s s' : Tape V} {value back merged name : Nat → Option Nat}
  {position : Nat → Nat} {r : Registry V} {needed usage needed' usage' : Nat → Bool}
  {i j k l m : Nat} {p q a : Place} {u w x : Usage V}

/-- The usages of `t` stand on `s` in their order. A value that is read there has the name of its
value on `t`, which is the result of the first of the equals of its usage. In between stand
constants. -/
structure Embeds (t s : Tape V) (name : Nat → Option Nat) (position : Nat → Nat) : Prop where
  indCount_eq : s.indCount = t.indCount
  options_eq : s.options = t.options
  zero : name t.zeroIndex = some t.zeroIndex
  independents : ∀ i < t.indCount, name i = some i
  increasing : ∀ {k l : Nat}, k < l → position k < position l
  placed : ∀ {k : Nat} {p : Place} {u : Usage V}, t.placed[k]? = some (p, u) → ∃ q w,
    s.placed[position k]? = some (q, w) ∧ q.vector = p.vector ∧ Usage.Renames name some u w
  results : ∀ {k : Nat} {p : Place} {u : Usage V}, t.placed[k]? = some (p, u) → ∃ m a x,
    s.placed[m]? = some (a, x) ∧ Usage.ReadFrom s.placed m (position k) ∧
      ∀ j < u.resultCount, name (p.first + j) = some (a.first + j)
  others : ∀ {l : Nat} {q : Place} {w : Usage V}, s.placed[l]? = some (q, w) →
    (∃ k < t.placed.length, position k = l) ∨ ∃ v, w = .constant v
  dependents : t.dependents.map name = s.dependents.map some
  reads : (Usage.readsFrom t.dependents t.usages).map name
    = (Usage.readsFrom s.dependents s.usages).map some
  adds : (Usage.addsFrom t.usages).map name = (Usage.addsFrom s.usages).map some

theorem Pads.usages_pads (h : t.Pads s value back) :
    Usage.Pads value back t.zeroPlace s.zeroPlace t.usages s.usages := by
  refine .keep (.constant _) (fun j hj => ?_) h.usages
  obtain rfl := Nat.lt_one_iff.mp hj
  have hzero : s.zeroIndex = t.zeroIndex := h.indCount_eq
  exact h.zero.trans (congrArg some hzero.symm)

/-- Merging leaves every usage in its place. -/
theorem Merges.exists_placed (h : s.Merges s' merged) (hk : s.placed[k]? = some (p, u)) :
    ∃ w, s'.placed[k]? = some (p, w) ∧ Usage.Renames merged some u w := by
  have hplace : s'.zeroPlace = s.zeroPlace := congrArg (Place.mk · 0) h.indCount_eq
  obtain ⟨w, hw, hrenames⟩ := Usage.exists_placed_of_forall₂ h.usages.flip
    (fun _ _ hu => hu.resultCount_eq.symm) (fun _ _ hu => hu.startsVector_eq.symm) hk
  have hk' : (Usage.placed s'.zeroPlace s'.usages)[k]? = some (p, w) := by rw [hplace, hw]
  exact ⟨w, hk', hrenames⟩

/-- Idle constants are put in, and equal usages merged then. -/
theorem embeds_of_pads (hpads : t.Pads s value back) (hmerges : s.Merges s' merged) :
    ∃ position, t.Embeds s' (fun i => (value i).bind merged) position := by
  obtain ⟨position, hincreasing, hplaced, hothers⟩ := hpads.usages_pads.exists_position rfl
  obtain ⟨ds, hds, hdeps⟩ := hpads.dependents
  have hdependents : t.dependents.map (fun i => (value i).bind merged)
      = s'.dependents.map some := by
    refine Usage.map_bind (mapM_eq_some_iff.mp hds) ?_
    have hmapped := mapM_eq_some_iff.mp hmerges.dependents
    rwa [Tape.dependents, hdeps] at hmapped
  have hfirst := hpads.usages_pads.map_reads
  have hlast := Usage.map_reads_of_forall₂ hmerges.usages
  have hself {i : Nat} (hi : value i = some i) (hi' : merged i = some i) :
      (value i).bind merged = some i := by rw [hi, Option.bind_some, hi']
  refine ⟨position, hmerges.indCount_eq.trans hpads.indCount_eq,
    hmerges.options_eq.trans hpads.options_eq, hself hpads.zero ?_, fun i hi => hself
      (hpads.independents i hi) (hmerges.independents i (hpads.indCount_eq ▸ hi)), hincreasing,
    fun {k p u} hk => ?_, fun {k p u} hk => ?_, fun {l q w} hl => ?_, hdependents, ?_, ?_⟩
  · have hzero : s.zeroIndex = t.zeroIndex := hpads.indCount_eq
    exact hzero ▸ hmerges.zero
  · obtain ⟨q, w, hl, hvector, hrenames, -⟩ := hplaced hk
    obtain ⟨w', hl', hrenames'⟩ := hmerges.exists_placed hl
    exact ⟨q, w', hl', hvector, hrenames.trans hrenames'⟩
  · obtain ⟨q, w, hl, -, hrenames, hvalue⟩ := hplaced hk
    obtain ⟨w', hl', hrenames'⟩ := hmerges.exists_placed hl
    obtain ⟨m, a, x, hm, hfrom, hmerged⟩ := hmerges.results hl'
    refine ⟨m, a, x, hm, hfrom, fun j hj => ?_⟩
    show (value (p.first + j)).bind merged = _
    rw [hvalue j hj, Option.bind_some]
    exact hmerged j (by rwa [hrenames'.resultCount_eq, hrenames.resultCount_eq])
  · obtain ⟨w₀, hl₀, hrenames⟩ := hmerges.placed hl
    rcases hothers hl₀ with ⟨k, hk, rfl⟩ | ⟨v, rfl⟩
    · exact .inl ⟨k, by rwa [← Usage.length_placed t.zeroPlace] at hk, rfl⟩
    · cases hrenames
      exact .inr ⟨v, rfl⟩
  · rw [Usage.readsFrom, Usage.readsFrom, List.map_append, List.map_append, hdependents,
      Usage.map_bind hfirst.1 hlast.1]
  · exact Usage.map_bind hfirst.2 hlast.2

theorem isRead_iff : t.IsRead i ↔ i ∈ Usage.readsFrom t.dependents t.usages := by
  rw [IsRead, Usage.readsFrom, List.mem_append, List.mem_flatMap, or_comm]

theorem WellFormed.lt_of_isRead (ht : t.WellFormed) (hi : t.IsRead i) : i < t.valueCount := by
  rcases hi with hdep | ⟨u, hu, hread⟩
  · exact ht.dependents i hdep
  · exact (ht.fits_of_mem hu).1 i hread

namespace Embeds

variable (h : t.Embeds s name position)
include h

/-! ## Names -/

/-- What is read there is the name of a value. -/
theorem exists_name (ht : t.WellFormed) (hread : s.IsRead j) :
    ∃ i < t.valueCount, name i = some j := by
  have hmem : some j ∈ (Usage.readsFrom t.dependents t.usages).map name :=
    h.reads ▸ List.mem_map_of_mem (isRead_iff.mp hread)
  obtain ⟨i, hi, hij⟩ := List.mem_map.mp hmem
  exact ⟨i, ht.lt_of_isRead (isRead_iff.mpr hi), hij⟩

/-- The usage that is read in the place of another has as many results. -/
theorem resultCount_eq (hk : t.placed[k]? = some (p, u)) (hm : s.placed[m]? = some (a, x))
    (hfrom : Usage.ReadFrom s.placed m (position k)) : x.resultCount = u.resultCount := by
  obtain ⟨q, w, hl, -, hrenames⟩ := h.placed hk
  exact (Usage.resultCount_of_ordered_eq (hfrom.ordered_eq hm hl)).trans hrenames.resultCount_eq

/-- A result that is the name of a value is read in the place of a usage of the tape. -/
theorem exists_readFrom (hm : s.placed[m]? = some (a, x)) (hj : j < x.resultCount)
    (hi : i < t.valueCount) (hij : name i = some (a.first + j)) :
    ∃ k p u, t.placed[k]? = some (p, u) ∧ Usage.ReadFrom s.placed m (position k) ∧
      i = p.first + j := by
  have hle : s.indCount ≤ a.first := Usage.first_le_of_placed hm
  have hind := h.indCount_eq
  have hge : t.indCount ≤ i := by
    by_contra hlt
    have hself := Option.some.inj ((h.independents i (Nat.lt_of_not_le hlt)).symm.trans hij)
    omega
  obtain ⟨k, p, u, j', hk, hj', rfl⟩ := exists_placed hge hi
  obtain ⟨m', a', x', hm', hfrom, hname⟩ := h.results hk
  have hcount := h.resultCount_eq hk hm' hfrom
  have hsame := Option.some.inj ((hname j' hj').symm.trans hij)
  obtain ⟨rfl, rfl⟩ := Usage.eq_of_results hm' hm (hcount ▸ hj') hj hsame
  exact ⟨k, p, u, hk, hfrom, rfl⟩

/-- A usage that cannot be merged stands there for itself. -/
theorem eq_position_of_not (hm : s.placed[m]? = some (a, x)) (hx : x.isMergeable = false) :
    ∃ k < t.placed.length, position k = m := by
  refine (h.others hm).resolve_right ?_
  rintro ⟨v, rfl⟩
  cases hx

/-- Equal usages are read from one place. -/
theorem readFrom_of_ordered_eq (hk : t.placed[k]? = some (p, u)) (hl : t.placed[l]? = some (q, w))
    (hw : w.isMergeable = true) (heq : w.ordered = u.ordered)
    (hfrom : Usage.ReadFrom s.placed m (position k)) : Usage.ReadFrom s.placed m (position l) := by
  obtain ⟨a, x, hk', -, hu⟩ := h.placed hk
  obtain ⟨b, y, hl', -, hy⟩ := h.placed hl
  have hsame := hu.ordered_congr hy heq.symm
  have hmerge : y.isMergeable = true := hy.isMergeable_eq.trans hw
  cases hfrom with
  | source hk'' _ hsource =>
    obtain ⟨rfl, rfl⟩ := Prod.mk.inj (Option.some.inj (hk'.symm.trans hk''))
    exact .source hl' hmerge (hsource.congr hsame)
  | self hk'' hnot _ =>
    obtain ⟨rfl, rfl⟩ := Prod.mk.inj (Option.some.inj (hk'.symm.trans hk''))
    rw [Usage.isMergeable_of_ordered_eq hsame, hmerge] at hnot
    cases hnot

end Embeds

/-! ## Names of different values -/

/-- There are no copies on a tape where equal usages are the same one. -/
theorem nodup_keys_iff : (Usage.keys t.usages).Nodup ↔
    ∀ {k l : Nat} {p q : Place} {u w : Usage V}, t.placed[k]? = some (p, u) →
      t.placed[l]? = some (q, w) → u.isMergeable = true → u.ordered = w.ordered → k = l := by
  rw [Usage.keys, List.Nodup, List.pairwise_map, List.pairwise_filter, List.pairwise_iff_getElem]
  constructor
  · intro h k l p q u w hk hl hu heq
    obtain ⟨hklt, hk⟩ := List.getElem?_eq_some_iff.mp (Usage.getElem?_of_placed hk)
    obtain ⟨hllt, hl⟩ := List.getElem?_eq_some_iff.mp (Usage.getElem?_of_placed hl)
    have hw : w.isMergeable = true := (Usage.isMergeable_of_ordered_eq heq).symm.trans hu
    subst hk hl
    rcases Nat.lt_trichotomy k l with hlt | hsame | hlt
    · exact absurd heq (h k l hklt hllt hlt hu hw)
    · exact hsame
    · exact absurd heq.symm (h l k hllt hklt hlt hw hu)
  · intro h k l hk hl hlt hu _ heq
    obtain ⟨p, hp⟩ := Usage.exists_placed_of_getElem? t.zeroPlace (List.getElem?_eq_getElem hk)
    obtain ⟨q, hq⟩ := Usage.exists_placed_of_getElem? t.zeroPlace (List.getElem?_eq_getElem hl)
    exact absurd (h hp hq hu heq) (Nat.ne_of_lt hlt)

namespace Embeds

variable (h : t.Embeds s name position) (ht : t.WellFormed)
include h

theorem position_injective : Function.Injective position :=
  StrictMono.injective fun _ _ hkl => h.increasing hkl

variable (hnodup : (Usage.keys t.usages).Nodup)
include ht hnodup

/-- Usages that are read from one place are the same if no two of the tape are equal, provided that
different values in front of them have different names. -/
theorem eq_of_readFrom {n : Nat} (hinj : InjectiveBelow name n) (hk : t.placed[k]? = some (p, u))
    (hl : t.placed[l]? = some (q, w)) (hp : p.first ≤ n) (hq : q.first ≤ n)
    (hfrom : Usage.ReadFrom s.placed m (position k))
    (hfrom' : Usage.ReadFrom s.placed m (position l)) : k = l := by
  obtain ⟨a, x, hm⟩ := hfrom.exists_placed
  obtain ⟨b, y, hk', -, hu⟩ := h.placed hk
  obtain ⟨c, z, hl', -, hw⟩ := h.placed hl
  have heq := (hfrom.ordered_eq hm hk').symm.trans (hfrom'.ordered_eq hm hl')
  cases hmerge : u.isMergeable with
  | true =>
    have hvector : InjectiveBelow some (max p.vector q.vector) :=
      fun _ _ _ _ _ hi hi' => Option.some.inj (hi.trans hi'.symm)
    refine nodup_keys_iff.mp hnodup hk hl hmerge (hu.ordered_eq hinj hvector hw ?_ ?_ heq)
    · exact (ht.fits hk).mono hp (Nat.le_max_left _ _)
    · exact (ht.fits hl).mono hq (Nat.le_max_right _ _)
  | false =>
    have hx : x.isMergeable = false :=
      (Usage.isMergeable_of_ordered_eq (hfrom.ordered_eq hm hk')).trans
        (hu.isMergeable_eq.trans hmerge)
    exact h.position_injective ((hfrom.eq_of_not hm hx).trans (hfrom'.eq_of_not hm hx).symm)

/-- A value has no name of an earlier one, if those in front of it have different names. -/
theorem eq_of_name (hinj : InjectiveBelow name i) (hi : i < t.valueCount) (hle : l ≤ i)
    (hij : name i = some j) (hlj : name l = some j) : l = i := by
  rcases Nat.lt_or_ge i t.indCount with hlt | hge
  · have hself := (h.independents i hlt).symm.trans hij
    have hself' := (h.independents l (Nat.lt_of_le_of_lt hle hlt)).symm.trans hlj
    exact Option.some.inj (hself'.trans hself.symm)
  · obtain ⟨k, p, u, n, hk, hn, rfl⟩ := exists_placed hge hi
    obtain ⟨m, a, x, hm, hfrom, hname⟩ := h.results hk
    obtain rfl : a.first + n = j := Option.some.inj ((hname n hn).symm.trans hij)
    have hcount := h.resultCount_eq hk hm hfrom
    obtain ⟨k', p', u', hk', hfrom', rfl⟩ :=
      h.exists_readFrom hm (hcount ▸ hn) (Nat.lt_of_le_of_lt hle hi) hlj
    -- both usages stand in front of the value, where names are different
    obtain rfl := h.eq_of_readFrom ht hnodup hinj hk' hk (by omega) (by omega) hfrom' hfrom
    obtain ⟨rfl, -⟩ := Prod.mk.inj (Option.some.inj (hk'.symm.trans hk))
    rfl

/-- If no two usages of the tape are equal, no two of its values have one name. -/
theorem injectiveBelow : InjectiveBelow name t.valueCount := by
  suffices hall : ∀ n ≤ t.valueCount, InjectiveBelow name n from hall _ (Nat.le_refl _)
  intro n
  -- usages read what stands in front of them, so the values below `n` decide on the next one
  induction n with
  | zero => exact fun hn i _ _ hi => absurd hi (Nat.not_lt_zero i)
  | succ n ih =>
    intro hn
    have hlater {i l j : Nat} (hi : i < n + 1) (hle : l ≤ i) (hij : name i = some j)
        (hlj : name l = some j) : l = i := by
      have hin := Nat.le_of_lt_succ hi
      refine h.eq_of_name ht hnodup (fun i₁ i₂ j' h₁ h₂ => ?_) (by omega) hle hij hlj
      exact ih (Nat.le_of_succ_le hn) (Nat.lt_of_lt_of_le h₁ hin) (Nat.lt_of_lt_of_le h₂ hin)
    intro i l j hi hl hij hlj
    rcases Nat.le_total i l with hle | hle
    · exact hlater hl hle hlj hij
    · exact (hlater hi hle hij hlj).symm

end Embeds

/-! ## Needs under new names -/

/-- The value has a name that is needed. -/
def NamedNeeded (name : Nat → Option Nat) (needed' : Nat → Bool) (i : Nat) : Prop :=
  ∃ j, name i = some j ∧ needed' j = true

namespace Embeds

section

variable (h : t.Embeds s name position) (hsol : t.LiveEquations r needed usage)
  (hsol' : s.LiveEquations r needed' usage')
  (hbehind : ∀ j, p.first ≤ j → j < t.valueCount → needed j = true → NamedNeeded name needed' j)
include h hsol' hbehind

/-- A usage with a needed result behind `p` is needed in the place where it is read. -/
theorem usage_of_results (hk : t.placed[k]? = some (q, u)) (hge : p.first ≤ q.first)
    (hfrom : Usage.ReadFrom s.placed m (position k))
    (hwanted : ∃ j < u.resultCount, needed (q.first + j) = true) : usage' m = true := by
  obtain ⟨j, hj, hneeded⟩ := hwanted
  have hle := results_le hk
  obtain ⟨j', hname, hneeded'⟩ := hbehind (q.first + j) (by omega) (by omega) hneeded
  obtain ⟨m', a, x, hm, hfrom', hnames⟩ := h.results hk
  obtain rfl := hfrom.unique hfrom'
  obtain rfl := Option.some.inj (hname.symm.trans (hnames j hj))
  exact hsol'.usage_of_result hm (h.resultCount_eq hk hm hfrom ▸ hj) hneeded'

include hsol

/-- Loads stand there in the same order, and are needed where they were. -/
theorem loadedBehind (hk : t.placed[k]? = some (p, u)) {which : Nat}
    (hload : Usage.LoadedBehind t.placed usage k which) :
    Usage.LoadedBehind s.placed usage' (position k) which := by
  obtain ⟨l, q, index, hlt, hl, husage⟩ := hload
  have hle := Usage.results_le_of_lt hlt hk hl
  obtain ⟨q', w, hl', -, hw⟩ := h.placed hl
  have hwanted := (hsol.usages (Nat.zero_lt_of_lt hlt) hl).mp husage
  cases hw with
  | @load _ which' _ index' hwhich hindex =>
    obtain rfl := Option.some.inj hwhich
    exact ⟨position l, q', index', h.increasing hlt, hl',
      h.usage_of_results hsol' hbehind hl (by omega) (.self hl' rfl rfl) hwanted⟩

variable (hinj : InjectiveBelow name t.valueCount) (ht : t.WellFormed)
include hinj ht

/-- A needed usage is needed in the place where it is read, if the needed values behind it have
needed names. -/
theorem usage_of_usage (hk : t.placed[k]? = some (p, u)) (husage : usage k = true)
    (hfrom : Usage.ReadFrom s.placed m (position k)) : usage' m = true := by
  have hzero : s.zeroIndex = t.zeroIndex := h.indCount_eq
  obtain ⟨q, w, hl, hvector, hw⟩ := h.placed hk
  have hpos : 0 < k → 0 < position k := fun hk => Nat.zero_lt_of_lt (h.increasing hk)
  have hself (hnot : w.isMergeable = false) : m = position k :=
    hfrom.unique (.self hl hnot rfl)
  rcases Nat.eq_zero_or_pos k with rfl | hk0
  · obtain ⟨rfl, rfl⟩ := Prod.mk.inj (Option.some.inj (t.placed_zero.symm.trans hk))
    have hneeded := (hsol.values t.zeroIndex t.zeroIndex_lt).mpr (.inr (.inl rfl))
    exact h.usage_of_results hsol' hbehind hk (Nat.le_refl _) hfrom ⟨0, Nat.one_pos, hneeded⟩
  · have hwanted := (hsol.usages hk0 hk).mp husage
    have hneeded' := (hsol'.usages (hpos hk0) hl).mpr
    rw [h.options_eq] at hneeded'
    cases hw with
    | compare =>
      obtain rfl := hself rfl
      exact hneeded' hwanted
    | @print _ _ flag flag' _ _ hflag _ =>
      obtain rfl := hself rfl
      refine hneeded' ⟨hwanted.1, fun heq => hwanted.2 ?_⟩
      have hlt := ((ht.fits_of_mem (mem_usages_of_placed hk)).1 flag
        (by simp [Usage.reads, Usage.args]))
      exact hinj hlt t.zeroIndex_lt hflag (by rw [heq, hzero, h.zero])
    | vector =>
      obtain rfl := hself rfl
      refine hneeded' ?_
      show Usage.LoadedBehind s.placed usage' (position k) q.vector
      rw [hvector]
      exact h.loadedBehind hsol hsol' hbehind hk hwanted
    | store hwhich =>
      obtain rfl := hself rfl
      obtain rfl := Option.some.inj hwhich
      exact hneeded' (h.loadedBehind hsol hsol' hbehind hk hwanted)
    | _ => exact h.usage_of_results hsol' hbehind hk (Nat.le_refl _) hfrom hwanted

variable (hs : s.WellFormed)
include hs

/-- What is read in the place of a usage reads the same values. -/
theorem namedNeeded_of_reads (hk : t.placed[k]? = some (p, u)) (husage : usage k = true)
    (hkind : u.kind.family? = none) (hi : i ∈ u.reads) : NamedNeeded name needed' i := by
  obtain ⟨q, w, hl, -, hw⟩ := h.placed hk
  obtain ⟨m, a, x, hm, hfrom, -⟩ := h.results hk
  have heq := hfrom.ordered_eq hm hl
  have hname : name i ∈ w.reads.map some := hw.map_reads ▸ List.mem_map_of_mem hi
  obtain ⟨j, hj, hij⟩ := List.mem_map.mp hname
  rw [← Usage.mem_reads_ordered, ← heq, Usage.mem_reads_ordered] at hj
  have hkind' : x.kind.family? = none := by
    rw [← Usage.kind_ordered, heq, Usage.kind_ordered, hw.kind_eq, hkind]
  rw [← Usage.needs_eq_reads r needed' a.first hkind'] at hj
  exact ⟨j, hij.symm, hsol'.value_of_needs hs hm
    (h.usage_of_usage hsol hsol' hbehind hinj ht hk husage hfrom) hj⟩

variable (hr : r.JoinsAnswers) (hanswered : s.Answered r needed' usage')
include hr hanswered
omit hsol hinj ht

/-- An input is marked for one of the needed results, which is needed there as well. -/
theorem namedNeeded_of_marked {family : Family} {id callId n : Nat} {inputs : List Nat}
    (hk : t.placed[k]? = some (p, .foreign family id callId n inputs))
    (hi : i ∈ Live.marked inputs
      (r.marks family id callId ((List.range' p.first n).map needed) inputs.length)) :
    NamedNeeded name needed' i := by
  obtain ⟨input, hinput, hmark⟩ := Live.mem_marked.mp hi
  obtain ⟨j, hj, hjoint⟩ := hr.exists_result hmark
  obtain ⟨hjn, hneeded⟩ := getElem?_map_range'.mp hj
  have hle : p.first + n ≤ t.valueCount := results_le hk
  obtain ⟨q, w, hl, -, hw⟩ := h.placed hk
  obtain ⟨m, a, x, hm, hfrom, hnames⟩ := h.results hk
  obtain ⟨j', hname, hneeded'⟩ := hbehind _ (Nat.le_add_right _ j) (by omega) hneeded
  obtain rfl := Option.some.inj (hname.symm.trans (hnames j hjn))
  cases hw with
  | @foreign _ _ _ _ _ inputs' hinputs =>
    rcases Usage.ordered_eq_iff.mp (hfrom.ordered_eq hm hl) with rfl | ⟨_, _, _, _, _, hbinary⟩
    · have husage' := hsol'.usage_of_result hm hjn hneeded'
      obtain ⟨answer, hanswer⟩ := hanswered hm husage'
      rw [← length_of_mapM_some hinputs] at hjoint
      have hmark' := hjoint (by simp) (getElem?_map_range'.mpr ⟨hjn, hneeded'⟩) hanswer
      have hinput' := congrArg (·[input]?) (mapM_eq_some_iff.mp hinputs)
      simp only [List.getElem?_map, hinput, Option.map_some] at hinput'
      obtain ⟨i', hi', hii'⟩ := Option.map_eq_some_iff.mp hinput'.symm
      refine ⟨i', hii'.symm, hsol'.value_of_needs hs hm husage' ?_⟩
      rw [Usage.needs, Registry.marks_of_dependence hanswer]
      exact Live.mem_marked.mpr ⟨input, hi', hmark'⟩
    · cases hbinary

end

/-- What is needed on the tape is needed there under its name. -/
theorem namedNeeded (h : t.Embeds s name position) (ht : t.WellFormed) (hs : s.WellFormed)
    (hinj : InjectiveBelow name t.valueCount) (hr : r.JoinsAnswers)
    (hsol : t.LiveEquations r needed usage) (hsol' : s.LiveEquations r needed' usage')
    (hanswered : s.Answered r needed' usage') (hi : i < t.valueCount) (hneeded : needed i = true) :
    NamedNeeded name needed' i := by
  refine hsol.induct ht (fun i hi => ?_) ?_ (fun {k p u} hk husage hbehind i hi => ?_) hi hneeded
  · have hname : name i ∈ s.dependents.map some := h.dependents ▸ List.mem_map_of_mem hi
    obtain ⟨j, hj, hij⟩ := List.mem_map.mp hname
    exact ⟨j, hij.symm, (hsol'.values j (hs.dependents j hj)).mpr (.inl hj)⟩
  · have hzero : s.zeroIndex = t.zeroIndex := h.indCount_eq
    exact ⟨t.zeroIndex, h.zero, hzero ▸ (hsol'.values _ s.zeroIndex_lt).mpr (.inr (.inl rfl))⟩
  · cases u with
    | foreign => exact h.namedNeeded_of_marked hsol' hbehind hs hr hanswered hk hi
    | _ => exact h.namedNeeded_of_reads hsol hsol' hbehind hinj ht hs hk husage rfl hi

end Embeds

/-! ## Readers under new names -/

namespace Embeds

variable (h : t.Embeds s name position) (ht : t.WellFormed)
  (hnodup : (Usage.keys t.usages).Nodup)
include h ht hnodup

/-- Without copies a usage is read from itself there, unless it is a constant, which may have an
idle one in front of it. -/
theorem readFrom_self (hk : t.placed[k]? = some (p, u)) (hu : u.kind ≠ .constant) :
    Usage.ReadFrom s.placed (position k) (position k) := by
  obtain ⟨q, w, hl, -, hw⟩ := h.placed hk
  obtain ⟨m, a, x, hm, hfrom, -⟩ := h.results hk
  rcases h.others hm with ⟨k', hk', rfl⟩ | ⟨v, rfl⟩
  · obtain ⟨⟨p', u'⟩, hk'⟩ : ∃ pu, t.placed[k']? = some pu := ⟨_, List.getElem?_eq_getElem hk'⟩
    have hle := results_le hk
    have hle' := results_le hk'
    obtain rfl := h.eq_of_readFrom ht hnodup (h.injectiveBelow ht hnodup) hk' hk (by omega)
      (by omega) hfrom.source_self hfrom
    exact hfrom
  · have hkind := congrArg Usage.kind (hfrom.ordered_eq hm hl)
    rw [Usage.kind_ordered, Usage.kind_ordered, hw.kind_eq] at hkind
    exact absurd hkind.symm hu

/-- A usage that adds has as many readers there, and as many that add. -/
theorem counts_eq (hk : t.placed[k]? = some (p, u)) (hl : s.placed[position k]? = some (q, w))
    (hu : u.isAdditive = true) :
    s.readCount q.first = t.readCount p.first ∧ s.addCount q.first = t.addCount p.first := by
  obtain ⟨terms, hterms⟩ := Usage.isAdditive_iff.mp hu
  have hone := (Terms.counts_of_ofUsage? hterms).1
  obtain ⟨m, a, x, hm, hfrom, hnames⟩ := h.results hk
  obtain rfl := hfrom.unique
    (h.readFrom_self ht hnodup hk (Usage.kind_ne_constant_of_isAdditive hu))
  obtain ⟨rfl, rfl⟩ := Prod.mk.inj (Option.some.inj (hm.symm.trans hl))
  have hname : name p.first = some a.first := hnames 0 (by omega)
  have hle := results_le hk
  have honly (i : Nat) (hi : i < t.valueCount) (hij : name i = some a.first) : i = p.first :=
    h.injectiveBelow ht hnodup hi (by omega) hij hname
  refine ⟨count_of_map_eq h.reads hname fun i hi => honly i (ht.lt_of_isRead (isRead_iff.mpr hi)),
    count_of_map_eq h.adds hname fun i hi => honly i ?_⟩
  obtain ⟨u', hu', hmem⟩ := List.mem_flatMap.mp hi
  exact (ht.fits_of_mem hu').1 i (Usage.mem_reads_of_mem_adds hmem)

/-- A sum can be absorbed there if it can be absorbed on the tape. -/
theorem mem_absorbable_iff (hk : t.placed[k]? = some (p, u))
    (hl : s.placed[position k]? = some (q, w)) :
    (q, w) ∈ s.absorbable ↔ (p, u) ∈ t.absorbable := by
  have hrenames : w.isAdditive = u.isAdditive := by
    obtain ⟨q', w', hl', -, hw⟩ := h.placed hk
    obtain ⟨rfl, rfl⟩ := Prod.mk.inj (Option.some.inj (hl.symm.trans hl'))
    exact hw.isAdditive_eq
  simp only [absorbable, List.mem_filter, List.mem_of_getElem? hl, List.mem_of_getElem? hk,
    true_and, hrenames, Bool.and_eq_true (Usage.isAdditive _)]
  refine and_congr_right fun hu => ?_
  rw [(h.counts_eq ht hnodup hk hl hu).1, (h.counts_eq ht hnodup hk hl hu).2]

/-- If nothing can be absorbed on the tape, nothing can be absorbed there. -/
theorem absorbable_eq_nil (hnone : t.absorbable = []) : s.absorbable = [] := by
  refine List.eq_nil_iff_forall_not_mem.mpr fun (q, w) hmem => ?_
  obtain ⟨hplaced, hadds, -⟩ := mem_absorbable.mp hmem
  obtain ⟨l, hl⟩ := List.mem_iff_getElem?.mp hplaced
  rcases h.others hl with ⟨k, hk, rfl⟩ | ⟨v, rfl⟩
  · have hfound := (h.mem_absorbable_iff ht hnodup (List.getElem?_eq_getElem hk) hl).mp hmem
    rw [hnone] at hfound
    cases hfound
  · cases hadds

/-- The needed usages of a tape without copies leave their footprints there. -/
theorem subperm_neededAt (hs : s.WellFormed) (hr : r.JoinsAnswers)
    (hsol : t.LiveEquations r needed usage) (hsol' : s.LiveEquations r needed' usage')
    (hanswered : s.Answered r needed' usage') :
    ((t.neededAt usage).map fun ((_, u), _) => u.footprint).Subperm
      ((s.neededAt usage').map fun ((_, u), _) => u.footprint) := by
  have hinj := h.injectiveBelow ht hnodup
  refine subperm_map_of_relation (R := fun a b => Usage.ReadFrom s.placed b.2 (position a.2))
    (t.nodup_neededAt usage) ?_ ?_
  · rintro ⟨⟨p, u⟩, k⟩ hmem
    obtain ⟨hk, husage⟩ := mem_neededAt.mp hmem
    obtain ⟨q, w, hl, -, hw⟩ := h.placed hk
    obtain ⟨m, a, x, hm, hfrom, -⟩ := h.results hk
    have husage' := h.usage_of_usage hsol hsol' (fun j _ hj hneeded =>
      h.namedNeeded ht hs hinj hr hsol hsol' hanswered hj hneeded) hinj ht hk husage hfrom
    refine ⟨((a, x), m), mem_neededAt.mpr ⟨hm, husage'⟩, hfrom, ?_⟩
    show u.footprint = x.footprint
    rw [← hw.footprint_eq, ← w.footprint_ordered, ← hfrom.ordered_eq hm hl, x.footprint_ordered]
  · rintro ⟨⟨p, u⟩, k⟩ hmem ⟨⟨p', u'⟩, k'⟩ hmem' ⟨_, m⟩ hfrom hfrom'
    have hk := (mem_neededAt.mp hmem).1
    have hk' := (mem_neededAt.mp hmem').1
    have hle := results_le hk
    have hle' := results_le hk'
    obtain rfl := h.eq_of_readFrom ht hnodup hinj hk hk' (by omega) (by omega) hfrom hfrom'
    rw [Option.some.inj (hk.symm.trans hk')]

end Embeds

end Tape

end OpTape
