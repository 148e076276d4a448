import OpTape.Proofs.Dropping
import OpTape.Proofs.Placement
/-
  Liveness as a system of equations. `LiveEquations` says of needed values and needed usages what
  each is needed for. The equations refer to each other, but always from a usage to what stands
  behind it, so they have at most one solution (`LiveEquations.unique`), and whatever holds of the
  dependents and passes from the needs of a usage to its operands holds of all needed values
  (`LiveEquations.induct`). One sweep from behind finds the solution (`WellFormed.liveEquations`):
  operands stand in front of their usage, so what the sweep adds later does not concern a usage
  that it has visited.
-/
namespace OpTape

variable {V : Type}

/-! ## The equations -/

/-- The inputs that a registered function marks for the needed ones of its results; none where it
gives no answer. -/
def Registry.marks (r : Registry V) (family : Family) (id callId : Nat) (needed : List Bool)
    (inputCount : Nat) : List Bool :=
  match r.dependence family id callId needed inputCount with
  | .ok answer => answer.toList
  | .error _ => []

theorem Registry.marks_of_dependence {r : Registry V} {family : Family} {id callId inputCount : Nat}
    {needed : List Bool} {answer : Vector Bool inputCount}
    (h : r.dependence family id callId needed inputCount = .ok answer) :
    r.marks family id callId needed inputCount = answer.toList := by
  rw [marks, h]

theorem Registry.exists_dependence {r : Registry V} {family : Family}
    {id callId inputCount k : Nat} {needed : List Bool}
    (h : (r.marks family id callId needed inputCount)[k]? = some true) :
    ∃ answer, r.dependence family id callId needed inputCount = .ok answer := by
  unfold marks at h
  split at h
  · exact ⟨_, ‹_›⟩
  · cases h

namespace Usage

/-- The values that a usage needs to have when it is needed itself and its results stand from
`first` on: the marked inputs of a registered function, and all that any other usage reads. -/
def needs (r : Registry V) (value : Nat → Bool) (first : Nat) : Usage V → List Nat
  | .foreign family id callId n inputs =>
    Live.marked inputs (r.marks family id callId ((List.range' first n).map value) inputs.length)
  | u => u.reads

/-- Behind position `k` stands a needed load of vector `which`. -/
def LoadedBehind (placed : List (Place × Usage V)) (usage : Nat → Bool) (k which : Nat) : Prop :=
  ∃ l p index, k < l ∧ placed[l]? = some (p, .load which index) ∧ usage l = true

/-- What the usage at position `k` is needed for. A comparison that cannot fail and a print whose
flag is the zero value are needed for nothing. -/
def IsWanted (options : Options) (zeroIndex : Nat) (placed : List (Place × Usage V))
    (value usage : Nat → Bool) (k : Nat) (p : Place) : Usage V → Prop
  | .compare cmp _ _ => options.keepCompare = true ∧ cmp ≠ .always
  | .print _ _ flag _ => options.keepPrint = true ∧ flag ≠ zeroIndex
  | .vector _ => LoadedBehind placed usage k p.vector
  | .store which _ _ => LoadedBehind placed usage k which
  | u => ∃ j < u.resultCount, value (p.first + j) = true

theorem mem_reads_of_mem_needs {r : Registry V} {value : Nat → Bool} {first i : Nat} {u : Usage V}
    (h : i ∈ u.needs r value first) : i ∈ u.reads := by
  cases u with
  | foreign family id callId n inputs => exact List.mem_append_left _ (Live.mem_of_marked h)
  | _ => exact h

/-- Only registered functions may need less than they read. -/
theorem needs_eq_reads (r : Registry V) (value : Nat → Bool) (first : Nat) {u : Usage V}
    (h : u.kind.family? = none) : u.needs r value first = u.reads := by
  cases u with
  | foreign => cases h
  | _ => rfl

/-- What a usage needs depends on the needs of its own results. -/
theorem needs_congr (r : Registry V) {value value' : Nat → Bool} {first : Nat} {u : Usage V}
    (h : ∀ j < u.resultCount, value (first + j) = value' (first + j)) :
    u.needs r value first = u.needs r value' first := by
  cases u with
  | foreign family id callId n inputs =>
    have hpattern : (List.range' first n).map value = (List.range' first n).map value' := by
      refine List.map_congr_left fun i hi => ?_
      obtain ⟨hge, hlt⟩ := List.mem_range'_1.mp hi
      obtain ⟨j, rfl⟩ := Nat.exists_eq_add_of_le hge
      exact h j (Nat.lt_of_add_lt_add_left hlt)
    rw [needs, needs, hpattern]
  | _ => rfl

section

variable {options : Options} {zeroIndex : Nat} {placed placed' : List (Place × Usage V)}
  {value value' usage usage' : Nat → Bool} {k k' which : Nat} {p : Place} {u : Usage V}

/-- What a usage is needed for depends on its results and on the loads behind it. -/
theorem isWanted_congr
    (hvalue : ∀ j < u.resultCount, value (p.first + j) = value' (p.first + j))
    (hloaded : ∀ which, LoadedBehind placed usage k which ↔ LoadedBehind placed' usage' k' which) :
    u.IsWanted options zeroIndex placed value usage k p ↔
      u.IsWanted options zeroIndex placed' value' usage' k' p := by
  have hresults : (∃ j < u.resultCount, value (p.first + j) = true) ↔
      ∃ j < u.resultCount, value' (p.first + j) = true :=
    exists_congr fun j => and_congr_right fun hj => by rw [hvalue j hj]
  cases u with
  | compare | print => exact Iff.rfl
  | vector => exact hloaded p.vector
  | store which => exact hloaded which
  | _ => exact hresults

theorem loadedBehind_zero_cons :
    LoadedBehind ((p, u) :: placed) usage 0 which ↔
      ∃ l q index, placed[l]? = some (q, .load which index) ∧ usage (l + 1) = true := by
  constructor
  · rintro ⟨l, q, index, hlt, hl, hneeded⟩
    obtain ⟨l, rfl⟩ := Nat.exists_eq_succ_of_ne_zero (Nat.ne_of_gt hlt)
    exact ⟨l, q, index, hl, hneeded⟩
  · rintro ⟨l, q, index, hl, hneeded⟩
    exact ⟨l + 1, q, index, Nat.succ_pos l, hl, hneeded⟩

theorem loadedBehind_cons : LoadedBehind ((p, u) :: placed) usage (k + 1) which ↔
    LoadedBehind placed (fun l => usage (l + 1)) k which := by
  constructor
  · rintro ⟨l, q, index, hlt, hl, hneeded⟩
    obtain ⟨l, rfl⟩ := Nat.exists_eq_succ_of_ne_zero (Nat.ne_of_gt (Nat.zero_lt_of_lt hlt))
    exact ⟨l, q, index, Nat.lt_of_succ_lt_succ hlt, hl, hneeded⟩
  · rintro ⟨l, q, index, hlt, hl, hneeded⟩
    exact ⟨l + 1, q, index, Nat.succ_lt_succ hlt, hl, hneeded⟩

end

end Usage

namespace Tape

variable [Scalar V]

/-- The needed values and usages of a tape, as equations. A value is needed as a dependent, as zero,
or because a needed usage needs it. The zero constant is needed, and any other usage where it is
wanted for something. -/
structure LiveEquations (t : Tape V) (r : Registry V) (value usage : Nat → Bool) : Prop where
  values : ∀ i < t.valueCount, value i = true ↔ i ∈ t.dependents ∨ i = t.zeroIndex ∨
    ∃ k p u, t.placed[k]? = some (p, u) ∧ usage k = true ∧ i ∈ u.needs r value p.first
  zero : usage 0 = true
  usages : ∀ {k p u}, 0 < k → t.placed[k]? = some (p, u) →
    (usage k = true ↔ u.IsWanted t.options t.zeroIndex t.placed value usage k p)

namespace LiveEquations

variable {t : Tape V} {r : Registry V} {value usage value' usage' : Nat → Bool} {k i : Nat}
  {p : Place} {u : Usage V}

/-- A usage is needed where one of its results is. -/
theorem usage_of_result (h : t.LiveEquations r value usage) (hk : t.placed[k]? = some (p, u))
    {j : Nat} (hj : j < u.resultCount) (hvalue : value (p.first + j) = true) : usage k = true := by
  cases k with
  | zero => exact h.zero
  | succ k =>
    rw [h.usages (Nat.succ_pos k) hk]
    cases u with
    | compare | print | vector | store => exact absurd hj (Nat.not_lt_zero j)
    | _ => exact ⟨j, hj, hvalue⟩

theorem value_of_needs (h : t.LiveEquations r value usage) (ht : t.WellFormed)
    (hk : t.placed[k]? = some (p, u)) (husage : usage k = true) (hi : i ∈ u.needs r value p.first) :
    value i = true := by
  have hlt : i < p.first := (ht.fits hk).1 i (Usage.mem_reads_of_mem_needs hi)
  have hle := results_le hk
  exact (h.values i (by omega)).mpr (Or.inr (Or.inr ⟨k, p, u, hk, husage, hi⟩))

/-- What holds of the dependents and of zero holds of all needed values, if it passes from the
needed values behind a usage to what the usage needs. -/
theorem induct (h : t.LiveEquations r value usage) (ht : t.WellFormed) {P : Nat → Prop}
    (hdependents : ∀ i ∈ t.dependents, P i) (hzero : P t.zeroIndex)
    (husage : ∀ {k p u}, t.placed[k]? = some (p, u) → usage k = true →
      (∀ j, p.first ≤ j → j < t.valueCount → value j = true → P j) →
      ∀ i ∈ u.needs r value p.first, P i) {i : Nat} (hi : i < t.valueCount)
    (hvalue : value i = true) : P i := by
  -- every need of a value comes from behind it
  induction hn : t.valueCount - i using Nat.strongRecOn generalizing i with
  | _ n ih =>
    rcases (h.values i hi).mp hvalue with hdep | rfl | ⟨k, p, u, hk, hneeded, hmem⟩
    · exact hdependents i hdep
    · exact hzero
    · have hlt : i < p.first := (ht.fits hk).1 i (Usage.mem_reads_of_mem_needs hmem)
      refine husage hk hneeded (fun j hge hj hjvalue => ?_) i hmem
      exact ih (t.valueCount - j) (by omega) hj hjvalue rfl

/-- Solutions that agree on the values from a usage on agree on the usage. -/
theorem usage_congr (h : t.LiveEquations r value usage) (h' : t.LiveEquations r value' usage')
    (hk : t.placed[k]? = some (p, u))
    (hvalue : ∀ j, p.first ≤ j → j < t.valueCount → value j = value' j) : usage k = usage' k := by
  -- loads behind the usage are needed for their results
  have hloaded (which : Nat) : Usage.LoadedBehind t.placed usage k which ↔
      Usage.LoadedBehind t.placed usage' k which := by
    refine exists_congr fun l => exists_congr fun q => exists_congr fun index =>
      and_congr_right fun hlt => and_congr_right fun hl => ?_
    have hle : p.first ≤ q.first :=
      Nat.le_trans (Nat.le_add_right _ _) (Usage.results_le_of_lt hlt hk hl)
    have hcount := results_le hl
    rw [h.usages (Nat.zero_lt_of_lt hlt) hl, h'.usages (Nat.zero_lt_of_lt hlt) hl]
    exact exists_congr fun j => and_congr_right fun hj => by
      rw [hvalue (q.first + j) (by omega) (by omega)]
  cases k with
  | zero => rw [h.zero, h'.zero]
  | succ k =>
    have hcount := results_le hk
    rw [Bool.eq_iff_iff, h.usages (Nat.succ_pos k) hk, h'.usages (Nat.succ_pos k) hk]
    exact Usage.isWanted_congr (fun j hj => hvalue _ (by omega) (by omega)) hloaded

/-- The equations have at most one solution. -/
theorem unique (h : t.LiveEquations r value usage) (h' : t.LiveEquations r value' usage')
    (ht : t.WellFormed) : (∀ i < t.valueCount, value i = value' i) ∧
      ∀ k < t.usages.length, usage k = usage' k := by
  have hvalue (i : Nat) (hi : i < t.valueCount) : value i = value' i := by
    induction hn : t.valueCount - i using Nat.strongRecOn generalizing i with
    | _ n ih =>
      have hneeds {k : Nat} {p : Place} {u : Usage V} (hk : t.placed[k]? = some (p, u)) :
          usage k = true ∧ i ∈ u.needs r value p.first ↔
            usage' k = true ∧ i ∈ u.needs r value' p.first := by
        by_cases hread : i ∈ u.reads
        · have hlt : i < p.first := (ht.fits hk).1 i hread
          have hbehind (j : Nat) (hge : p.first ≤ j) (hj : j < t.valueCount) :
              value j = value' j := ih (t.valueCount - j) (by omega) j hj rfl
          have hcount := results_le hk
          rw [h.usage_congr h' hk hbehind,
            Usage.needs_congr r fun j hj => hbehind (p.first + j) (by omega) (by omega)]
        · exact iff_of_false (fun hmem => hread (Usage.mem_reads_of_mem_needs hmem.2))
            fun hmem => hread (Usage.mem_reads_of_mem_needs hmem.2)
      rw [Bool.eq_iff_iff, h.values i hi, h'.values i hi]
      refine or_congr_right (or_congr_right ?_)
      exact exists_congr fun k => exists_congr fun p => exists_congr fun u =>
        and_congr_right fun hk => hneeds hk
  refine ⟨hvalue, fun k hk => ?_⟩
  obtain ⟨p, hp⟩ := Usage.exists_placed_of_getElem? t.zeroPlace (List.getElem?_eq_getElem hk)
  exact h.usage_congr h' hp fun j _ hj => hvalue j hj

end LiveEquations

end Tape

end OpTape
