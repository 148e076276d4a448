import OpTape.Proofs.Advancing
import OpTape.Proofs.Positions
/-
  Dynamic vectors, read off what was recorded. What a cell holds is the last thing written there:
  by the latest store to its vector whose index has the same position or is not finite, else by
  the start of the vector (`Usage.recalled?`). At any time during an evaluation the vectors hold
  what is recalled from the usages so far (`Usage.Remembers`), by induction on their number. So the
  final values alone say what each load brought.
-/
namespace OpTape

variable {V : Type} [Scalar V]

namespace Scalar

/-- The position that an index names: none if it is not finite, negative if it is outside. -/
def position (index : V) : Option Int :=
  match subscript index with
  | .undefined => none
  | .outside => some (-1)
  | .cell n => some n

variable {number : V → Option Rat} {index : V}

theorem Truncates.position_of_none (h : Truncates number) (hq : number index = none) :
    position index = none := by
  rw [position, h.undefined hq]

theorem Truncates.position_of_some (h : Truncates number) {q : Rat} (hq : number index = some q) :
    position index = some (if -1 < q ∧ q < wordCount then truncate q else -1) := by
  by_cases hwords : -1 < q ∧ q < wordCount
  · rw [position, h.cell hq hwords.1 hwords.2, if_pos hwords]
    exact congrArg some (Int.toNat_of_nonneg (truncate_nonneg_iff.mpr hwords.1))
  · rw [position, h.outside hq hwords, if_neg hwords]

/-- Where scalars are read as numbers, the positions are the truncated numbers, up to the count of
words. -/
theorem Truncates.position_eq_some_iff (h : Truncates number) {n : Nat} (hn : n < wordCount) :
    position index = some (n : Int) ↔ (number index).map truncate = some (n : Int) := by
  cases hq : number index with
  | none => simp [h.position_of_none hq]
  | some q =>
    rw [h.position_of_some hq, Option.map_some, Option.some.injEq, Option.some.injEq]
    split
    · rfl
    · rename_i hwords
      refine ⟨fun heq => by omega, fun heq => absurd ?_ hwords⟩
      have hpos : 0 < wordCount := by decide
      exact ⟨truncate_nonneg_iff.mp (by omega), (truncate_lt_iff hpos).mp (by omega)⟩

theorem Truncates.position_eq_none_iff (h : Truncates number) :
    position index = none ↔ (number index).map truncate = none := by
  cases hq : number index with
  | none => simp [h.position_of_none hq]
  | some q => simp [h.position_of_some hq]

end Scalar

/-- The number names one of `size` cells: it is above -1 and below the size, and there is a
cell. -/
def InRange (q : Rat) (size : Nat) : Prop := -1 < q ∧ q < size ∧ 0 < size

theorem inRange_iff {q : Rat} {size : Nat} :
    InRange q size ↔ 0 ≤ truncate q ∧ truncate q < size := by
  rw [InRange, truncate_nonneg_iff]
  constructor
  · rintro ⟨hlow, hhigh, hpos⟩
    exact ⟨hlow, (truncate_lt_iff hpos).mpr hhigh⟩
  · rintro ⟨hlow, hhigh⟩
    have hnonneg := truncate_nonneg_iff.mpr hlow
    have hpos : 0 < size := by omega
    exact ⟨hlow, (truncate_lt_iff hpos).mp hhigh, hpos⟩

/-! ## Finding a cell -/

section

variable {w : Nat} {index : V} {size : Nat}

theorem locate_of_none (w size : Nat) (h : Scalar.position index = none) :
    locate w index size = .ok none := by
  unfold Scalar.position at h
  unfold locate
  cases hsub : Scalar.subscript index <;> rw [hsub] at h <;> first | rfl | cases h

theorem locate_of_lt (w : Nat) {n : Nat} (h : Scalar.position index = some (n : Int))
    (hn : n < size) : locate w index size = .ok (some ⟨n, hn⟩) := by
  unfold Scalar.position at h
  unfold locate
  cases hsub : Scalar.subscript index with
  | undefined =>
    rw [hsub] at h
    cases h
  | outside =>
    rw [hsub] at h
    have := Option.some.inj h
    omega
  | cell m =>
    rw [hsub] at h
    obtain rfl := Int.ofNat.inj (Option.some.inj h)
    exact dif_pos hn

theorem locate_of_not_lt (w : Nat) {p : Int} (h : Scalar.position index = some p)
    (hp : ¬(0 ≤ p ∧ p < size)) : locate w index size = .error (.vectorIndex w index size) := by
  unfold Scalar.position at h
  unfold locate
  cases hsub : Scalar.subscript index with
  | undefined =>
    rw [hsub] at h
    cases h
  | outside => rfl
  | cell m =>
    rw [hsub] at h
    obtain rfl := Option.some.inj h
    exact dif_neg (by omega)

/-- An index is found at its position. -/
theorem position_of_locate {k : Option (Fin size)} (h : locate w index size = .ok k) :
    Scalar.position index = k.map fun n : Fin size => ((n : Nat) : Int) := by
  cases hp : Scalar.position index with
  | none =>
    rw [locate_of_none w size hp] at h
    obtain rfl := Except.ok.inj h
    rfl
  | some p =>
    by_cases hin : 0 ≤ p ∧ p < size
    · obtain ⟨n, rfl⟩ := Int.eq_ofNat_of_zero_le hin.1
      rw [locate_of_lt w hp (Int.ofNat_lt.mp hin.2)] at h
      obtain rfl := Except.ok.inj h
      rfl
    · rw [locate_of_not_lt w hp hin] at h
      cases h

end

namespace Usage

variable {r : Registry V} {values : Array V} {vectors : Array (Array V)}

/-! ## What is recalled -/

/-- The values a usage starts a vector from, if it starts one. -/
def starts? : Usage V → Option (List Nat)
  | vector initial => some initial
  | _ => none

/-- What a usage writes at position `n` of vector `w`, if it writes there. A store whose index has
no position writes nan at every position. -/
def writes? (position : V → Option Int) (values : Array V) (w n : Nat) : Usage V → Option V
  | store which index value =>
    if which = w then do
      match position (← values[index]?) with
      | none => some Scalar.nan
      | some p => if p = n then values[value]? else none
    else none
  | _ => none

/-- What stands at position `n` of vector `w` behind the usages `before`: what was written there
last, else what the vector was started with. -/
def recalled? (position : V → Option Int) (values : Array V) (before : List (Usage V)) (w n : Nat) :
    Option V :=
  (before.reverse.findSome? (writes? position values w n)).or do
    let initial ← (before.filterMap starts?)[w]?
    values[← initial[n]?]?

variable {position : V → Option Int} {before : List (Usage V)} {u : Usage V} {w n : Nat}

theorem writes?_of_vector?_ne (h : u.vector? ≠ some w) : u.writes? position values w n = none := by
  cases u with
  | store which index value => exact if_neg fun heq => h (congrArg some heq)
  | _ => rfl

omit [Scalar V] in
theorem starts?_eq_none (h : u.startsVector = false) : u.starts? = none := by
  cases u with
  | vector => cases h
  | _ => rfl

/-- One more usage adds what it writes. -/
theorem recalled?_concat (hstart : ((before ++ [u]).filterMap starts?)[w]?
    = (before.filterMap starts?)[w]?) : recalled? position values (before ++ [u]) w n
      = (u.writes? position values w n).or (recalled? position values before w n) := by
  rw [recalled?, recalled?, hstart, List.reverse_append, List.reverse_singleton,
    List.findSome?_append, Option.or_assoc]
  simp

/-- A vector that no usage works on holds what it was started with. -/
theorem recalled?_of_unused {initial : List Nat} (hunused : ∀ v ∈ before, v.vector? ≠ some w)
    (hstart : (before.filterMap starts?)[w]? = some initial) :
    recalled? position values before w n = initial[n]?.bind (values[·]?) := by
  have hnone : before.reverse.findSome? (writes? position values w n) = none :=
    List.findSome?_eq_none_iff.mpr fun v hv =>
      writes?_of_vector?_ne (hunused v (List.mem_reverse.mp hv))
  rw [recalled?, hnone, hstart, Option.none_or]
  rfl

/-- Only the values that stand for positions matter. -/
theorem recalled?_congr {position' : V → Option Int}
    (hnone : ∀ a, position a = none ↔ position' a = none)
    (hsome : ∀ a, position a = some (n : Int) ↔ position' a = some (n : Int)) :
    recalled? position values before w n = recalled? position' values before w n := by
  have hwrites : writes? (V := V) position values w n = writes? position' values w n := by
    funext u
    cases u with
    | store which index value =>
      simp only [writes?]
      split
      · cases values[index]? with
        | none => rfl
        | some a =>
          simp only [Option.bind_eq_bind, Option.bind_some]
          cases hp : position a with
          | none => rw [(hnone a).mp hp]
          | some p =>
            cases hp' : position' a with
            | none => cases hp.symm.trans ((hnone a).mpr hp')
            | some p' =>
              have heq : p = n ↔ p' = n := by simpa [hp, hp'] using hsome a
              simp only [heq]
      · rfl
    | _ => rfl
  rw [recalled?, recalled?, hwrites]

/-- What a store makes of the cells of its vector. -/
theorem stored_of_effect {s : State V} {e : Effect V} {w x y : Nat} {cells : Array V}
    (hvalues : ∀ (i : Nat) a, s.values[i]? = some a → values[i]? = some a)
    (hcells : s.vectors[w]? = some cells)
    (he : (store w x y).effect r s.values s.vectors = .ok e) :
    ∃ cells', e = .stored w cells' ∧ cells'.size = cells.size ∧ ∀ n < cells.size,
      cells'[n]? = ((store w x y).writes? Scalar.position values w n).or cells[n]? := by
  simp only [effect, bind_eq_ok_iff, entry_eq_ok_iff] at he
  obtain ⟨cells', hcells', a, ha, index, hindex, k, hk, he⟩ := he
  obtain rfl := Option.some.inj (hcells.symm.trans hcells')
  have hposition := position_of_locate hk
  have hwrites (n : Nat) : (store w x y).writes? Scalar.position values w n
      = match Scalar.position index with
        | none => some Scalar.nan
        | some p => if p = n then some a else none := by
    simp only [writes?, if_true, hvalues x index hindex, hvalues y a ha]
    rfl
  cases k with
  | none =>
    refine ⟨_, (Except.ok.inj he).symm, Array.size_replicate, fun n hn => ?_⟩
    rw [hwrites, hposition, Array.getElem?_replicate, if_pos hn]
    rfl
  | some k =>
    refine ⟨_, (Except.ok.inj he).symm, Array.size_set _, fun n hn => ?_⟩
    rw [hwrites, hposition, Array.getElem?_set]
    by_cases hkn : (k : Nat) = n <;> simp [hkn]

/-- The vectors hold what is recalled from the usages so far. -/
structure Remembers (values : Array V) (before : List (Usage V)) (vectors : Array (Array V)) :
    Prop where
  count : (before.filterMap starts?).length = vectors.size
  accesses : ∀ v ∈ before, ∀ w ∈ v.vector?, w < vectors.size
  cells : ∀ w cells, vectors[w]? = some cells → ∃ initial,
    (before.filterMap starts?)[w]? = some initial ∧ initial.length = cells.size ∧
      ∀ n < cells.size, recalled? Scalar.position values before w n = cells[n]?

namespace Remembers

variable {s : State V} {e : Effect V}

theorem accesses_concat (h : Remembers values before vectors) {m : Nat} (hm : vectors.size ≤ m)
    (hu : ∀ w ∈ u.vector?, w < m) : ∀ v ∈ before ++ [u], ∀ w ∈ v.vector?, w < m := by
  intro v hv w hw
  rcases List.mem_append.mp hv with hv | hv
  · exact Nat.lt_of_lt_of_le (h.accesses v hv w hw) hm
  · obtain rfl := List.mem_singleton.mp hv
    exact hu w hw

/-- A vector that the next usage does not write to holds what it held. -/
theorem cells_concat (h : Remembers values before vectors) {cells : Array V}
    (hcells : vectors[w]? = some cells)
    (hwrites : ∀ n, u.writes? Scalar.position values w n = none)
    (hstart : ((before ++ [u]).filterMap starts?)[w]? = (before.filterMap starts?)[w]?) :
    ∃ initial, ((before ++ [u]).filterMap starts?)[w]? = some initial ∧
      initial.length = cells.size ∧ ∀ n < cells.size,
        recalled? Scalar.position values (before ++ [u]) w n = cells[n]? := by
  obtain ⟨initial, hinitial, hlength, hrecall⟩ := h.cells w cells hcells
  refine ⟨initial, hstart.trans hinitial, hlength, fun n hn => ?_⟩
  rw [recalled?_concat hstart, hwrites, Option.none_or, hrecall n hn]

/-- A usage that neither starts a vector nor stores changes nothing in the vectors. -/
theorem keep (h : Remembers values before vectors) (hstarts : u.startsVector = false)
    (hstore : u.kind ≠ .store) (hfits : ∀ w ∈ u.vector?, w < vectors.size) :
    Remembers values (before ++ [u]) vectors := by
  have hlist : (before ++ [u]).filterMap starts? = before.filterMap starts? := by
    simp [starts?_eq_none hstarts]
  have hwrites (w n : Nat) : u.writes? Scalar.position values w n = none := by
    cases u with
    | store => exact absurd rfl hstore
    | _ => rfl
  exact ⟨hlist ▸ h.count, h.accesses_concat (Nat.le_refl _) hfits,
    fun w cells hcells => h.cells_concat hcells (hwrites w) (congrArg (·[w]?) hlist)⟩

/-- A vector starts with what its usage names. -/
theorem started (h : Remembers values before vectors) {initial : List Nat} {cells : List V}
    (hcells : initial.map (values[·]?) = cells.map some) :
    Remembers values (before ++ [vector initial]) (vectors.push cells.toArray) := by
  have hlist : (before ++ [vector initial]).filterMap starts?
      = before.filterMap starts? ++ [initial] := by
    simp [starts?]
  refine ⟨by rw [hlist, List.length_append, Array.size_push, h.count]; rfl,
    h.accesses_concat (by simp) (fun w hw => by cases hw), fun w cells' hcells' => ?_⟩
  rcases Nat.lt_or_ge w vectors.size with hw | hw
  · rw [Array.getElem?_push, if_neg (Nat.ne_of_lt hw)] at hcells'
    refine h.cells_concat hcells' (fun n => rfl) ?_
    rw [hlist, List.getElem?_append_left (h.count.symm ▸ hw)]
  · have hlt := (Array.getElem?_eq_some_iff.mp hcells').1
    obtain rfl : w = vectors.size := by
      rw [Array.size_push] at hlt
      omega
    obtain rfl := Option.some.inj (Array.getElem?_push_size.symm.trans hcells')
    have hlength := congrArg List.length hcells
    rw [List.length_map, List.length_map] at hlength
    have hstart : ((before ++ [vector initial]).filterMap starts?)[vectors.size]?
        = some initial := by
      rw [hlist, ← h.count, List.getElem?_concat_length]
    -- no usage so far works on the vector that starts now
    have hunused (v : Usage V) (hv : v ∈ before ++ [vector initial]) :
        v.vector? ≠ some vectors.size := by
      intro hvw
      rcases List.mem_append.mp hv with hv | hv
      · exact Nat.lt_irrefl _ (h.accesses v hv _ hvw)
      · obtain rfl := List.mem_singleton.mp hv
        cases hvw
    refine ⟨initial, hstart, hlength, fun n _ => ?_⟩
    have hentry := congrArg (·[n]?) hcells
    simp only [List.getElem?_map] at hentry
    rw [recalled?_of_unused hunused hstart, List.getElem?_toArray]
    have hjoin : initial[n]?.bind (values[·]?) = (initial[n]?.map (values[·]?)).join := by
      cases initial[n]? <;> rfl
    rw [hjoin, hentry]
    cases cells[n]? <;> rfl

/-- A store changes the cells of its vector to what it writes, and no other vector. -/
theorem stored (h : Remembers values before vectors) {w x y : Nat} {cells cells' : Array V}
    (hcells : vectors[w]? = some cells) (hsize : cells'.size = cells.size)
    (hwritten : ∀ n < cells.size,
      cells'[n]? = ((store w x y).writes? Scalar.position values w n).or cells[n]?) :
    Remembers values (before ++ [store w x y]) (vectors.setIfInBounds w cells') := by
  have hlist : (before ++ [store w x y]).filterMap starts? = before.filterMap starts? := by
    simp [starts?]
  have hw := (Array.getElem?_eq_some_iff.mp hcells).1
  have haccess (w' : Nat) (hw' : w' ∈ (store w x y : Usage V).vector?) :
      w' < (vectors.setIfInBounds w cells').size := by
    obtain rfl := Option.some.inj hw'
    rwa [Array.size_setIfInBounds]
  refine ⟨by rw [hlist, Array.size_setIfInBounds, h.count],
    h.accesses_concat (Nat.le_of_eq Array.size_setIfInBounds.symm) haccess,
    fun w' cells'' hcells'' => ?_⟩
  have hstart := congrArg (·[w']?) hlist
  by_cases heq : w = w'
  · subst heq
    rw [Array.getElem?_setIfInBounds_self_of_lt hw] at hcells''
    obtain rfl := Option.some.inj hcells''
    obtain ⟨initial, hinitial, hlength, hrecall⟩ := h.cells w cells hcells
    refine ⟨initial, hstart.trans hinitial, hlength.trans hsize.symm, fun n hn => ?_⟩
    rw [recalled?_concat hstart, hrecall n (hsize ▸ hn), hwritten n (hsize ▸ hn)]
  · rw [Array.getElem?_setIfInBounds_ne heq] at hcells''
    exact h.cells_concat hcells''
      (fun n => writes?_of_vector?_ne fun hww' => heq (Option.some.inj hww')) hstart

/-- One usage more, and the vectors still hold what is recalled. -/
theorem step (h : Remembers values before s.vectors)
    (hvalues : ∀ (i : Nat) a, s.values[i]? = some a → values[i]? = some a)
    (hfits : u.Fits s.values.size s.vectors.size) (he : u.effect r s.values s.vectors = .ok e) :
    Remembers values (before ++ [u]) (s.apply e).vectors := by
  have hof := isOf_of_effect he
  cases u with
  | vector initial =>
    obtain ⟨cells, hcells, heq⟩ := bind_eq_ok_iff.mp he
    obtain rfl := Except.ok.inj heq
    exact h.started (map_of_mapM_ok hcells fun i a ha => hvalues i a (entry_eq_ok_iff.mp ha))
  | store w x y =>
    obtain ⟨cells, hcells⟩ : ∃ cells, s.vectors[w]? = some cells :=
      ⟨_, Array.getElem?_eq_getElem (hfits.2 w rfl)⟩
    obtain ⟨cells', rfl, hsize, hwritten⟩ := stored_of_effect hvalues hcells he
    exact h.stored hcells hsize hwritten
  | _ =>
    have hvectors : (s.apply e).vectors = s.vectors := by
      cases e with
      | started cells => cases hof
      | stored which cells => cases hof.1
      | results | compared | printed => rfl
    rw [hvectors]
    exact h.keep rfl (fun hkind => by cases hkind) hfits.2

end Remembers

/-! ## Loads and stores -/

/-- The vector and the value that a load or a store takes its cell from. -/
def access? : Usage V → Option (Nat × Nat)
  | load which index => some (which, index)
  | store which index _ => some (which, index)
  | _ => none

/-- A load has brought what is recalled at the position of its index, and nan if there is none. -/
def LoadedAt (u : Usage V) (position : V → Option Int) (values : Array V)
    (before : List (Usage V)) (first : Nat) : Prop :=
  ∀ w x, u = load w x → ∃ index, values[x]? = some index ∧
    (position index = none → values[first]? = some Scalar.nan) ∧
    ∀ p, position index = some p → ∃ (n : Nat) (v : V), p = n ∧
      recalled? position values before w n = some v ∧ values[first]? = some v

omit [Scalar V] in
/-- What a load or a store works on is there. -/
theorem lt_of_access {x m : Nat} (haccess : u.access? = some (w, x)) (hfits : u.Fits n m) :
    x < n ∧ w < m := by
  cases u with
  | load which index =>
    cases haccess
    exact ⟨hfits.1 x (by simp [reads, args]), hfits.2 w rfl⟩
  | store which index y =>
    cases haccess
    exact ⟨hfits.1 x (by simp [reads, args]), hfits.2 w rfl⟩
  | _ => cases haccess

/-- Loads and stores differ in what they make of the cell that their index names, if it names one. -/
theorem exists_effect_eq_of_access {x : Nat} {cells : Array V} {index : V}
    (haccess : u.access? = some (w, x)) (hfits : u.Fits values.size vectors.size)
    (hcells : vectors[w]? = some cells) (hindex : values[x]? = some index) :
    ∃ f, u.effect r values vectors = (locate w index cells.size).map f := by
  cases u with
  | load which x =>
    cases haccess
    refine ⟨fun k => .results [k.elim Scalar.nan (cells[·])], ?_⟩
    simp only [effect, entry_eq_ok_iff.mpr hcells, entry_eq_ok_iff.mpr hindex]
    show locate w index cells.size >>= _ = _
    cases locate w index cells.size with
    | error f => rfl
    | ok k => cases k <;> rfl
  | store which x y =>
    cases haccess
    have hy : y < values.size := hfits.1 y (by simp [reads, args])
    have hvalue : values[y]? = some values[y] := Array.getElem?_eq_getElem hy
    refine ⟨fun k => .stored w (k.elim (.replicate cells.size Scalar.nan) (cells.set · values[y])),
      ?_⟩
    simp only [effect, entry_eq_ok_iff.mpr hcells, entry_eq_ok_iff.mpr hindex,
      entry_eq_ok_iff.mpr hvalue]
    show locate w index cells.size >>= _ = _
    cases locate w index cells.size with
    | error f => rfl
    | ok k => cases k <;> rfl
  | _ => cases haccess

/-- Nothing but its index decides whether a load or a store succeeds. -/
theorem effect_of_access {x : Nat} {cells : Array V} {index : V}
    (haccess : u.access? = some (w, x)) (hfits : u.Fits values.size vectors.size)
    (hcells : vectors[w]? = some cells) (hindex : values[x]? = some index) :
    (∀ k, locate w index cells.size = .ok k → ∃ e, u.effect r values vectors = .ok e) ∧
      ∀ fault, locate w index cells.size = .error fault →
        u.effect r values vectors = .error fault := by
  obtain ⟨f, hf⟩ := exists_effect_eq_of_access haccess hfits hcells hindex
  rw [hf]
  exact ⟨fun k hk => ⟨f k, by rw [hk]; rfl⟩, fun fault hfault => by rw [hfault]; rfl⟩

/-- A load that succeeds brings what the vectors hold. -/
theorem Remembers.loadedAt {s : State V} {e : Effect V} (h : Remembers values before s.vectors)
    (hvalues : ∀ (i : Nat) a, (s.apply e).values[i]? = some a → values[i]? = some a)
    (he : u.effect r s.values s.vectors = .ok e) :
    u.LoadedAt Scalar.position values before s.values.size := by
  rintro w x rfl
  simp only [effect, bind_eq_ok_iff, entry_eq_ok_iff] at he
  obtain ⟨cells, hcells, index, hindex, k, hk, he⟩ := he
  have hposition := position_of_locate hk
  have hresult (a : V) (ha : e = .results [a]) : values[s.values.size]? = some a := by
    refine hvalues _ a ?_
    rw [ha, State.values_apply]
    exact Array.getElem?_push_size
  refine ⟨index, hvalues x index (State.getElem?_apply hindex e), fun hnone => ?_, fun p hp => ?_⟩
  · cases k with
    | none => exact hresult _ (Except.ok.inj he).symm
    | some k => cases hposition.symm.trans hnone
  · cases k with
    | none => cases hposition.symm.trans hp
    | some k =>
      obtain ⟨initial, -, -, hrecall⟩ := h.cells w cells hcells
      refine ⟨k, cells[k], (Option.some.inj (hposition.symm.trans hp)).symm, ?_,
        hresult _ (Except.ok.inj he).symm⟩
      rw [hrecall k k.isLt]
      exact Array.getElem?_eq_getElem k.isLt

/-- What a load brought can be said in terms of numbers. -/
theorem LoadedAt.of_truncates {number : V → Option Rat} (hnumber : Scalar.Truncates number)
    {first : Nat} (h : u.LoadedAt Scalar.position values before first) :
    u.LoadedAt (fun a => (number a).map truncate) values before first := by
  intro w x hu
  obtain ⟨index, hindex, hnone, hsome⟩ := h w x hu
  refine ⟨index, hindex, fun hp => hnone (hnumber.position_eq_none_iff.mpr hp), fun p hp => ?_⟩
  obtain ⟨q, hq, rfl⟩ := Option.map_eq_some_iff.mp hp
  have hposition := hnumber.position_of_some hq
  obtain ⟨n, v, hn, hrecall, hv⟩ := hsome _ hposition
  -- an index that is outside has no cell to be loaded from
  have hwords : -1 < q ∧ q < wordCount := by
    by_contra hwords
    rw [if_neg hwords] at hn
    omega
  rw [if_pos hwords] at hn
  have hlt : n < wordCount := by
    have := (truncate_lt_iff (n := wordCount) (by decide)).mpr hwords.2
    omega
  refine ⟨n, v, hn, ?_, hv⟩
  rw [← hrecall]
  exact (recalled?_congr (fun a => hnumber.position_eq_none_iff)
    fun a => hnumber.position_eq_some_iff hlt).symm

end Usage

/-! ## Vectors during an evaluation -/

/-- An index without a number names no cell, and is no mistake. -/
theorem Scalar.Truncates.locate_of_none {number : V → Option Rat} (h : Truncates number) {index : V}
    (hq : number index = none) (w size : Nat) : locate w index size = .ok none :=
  OpTape.locate_of_none w size (h.position_of_none hq)

/-- An index with a number names a cell exactly when the number is in range. -/
theorem Scalar.Truncates.locate_of_some {number : V → Option Rat} (h : Truncates number) {index : V}
    {q : Rat} (hq : number index = some q) (w size : Nat) :
    (InRange q size → size ≤ wordCount → ∃ n, locate w index size = .ok (some n)) ∧
      (¬InRange q size → locate w index size = .error (.vectorIndex w index size)) := by
  have hposition := h.position_of_some hq
  rw [inRange_iff]
  constructor
  · rintro ⟨hlow, hhigh⟩ hwords
    have hlt : q < wordCount := (truncate_lt_iff (by decide)).mp (by omega)
    rw [if_pos ⟨truncate_nonneg_iff.mp hlow, hlt⟩, ← Int.toNat_of_nonneg hlow] at hposition
    exact ⟨_, locate_of_lt w hposition (by omega)⟩
  · intro hrange
    refine locate_of_not_lt w hposition ?_
    split
    · exact hrange
    · omega

namespace Tape

variable {t : Tape V} {r : Registry V} {traced : Bool} {initial : Array V} {s s' : State V}
  {k : Nat} {slot : Slot} {u : Usage V}

/-- Along an evaluation the vectors hold what is recalled from the usages so far. -/
theorem WellFormed.remembers (ht : t.WellFormed) (hsize : initial.size = t.valueCount)
    {values : Array V} (hk : k ≤ t.usages.length) (hs : t.stateAt r traced initial k = .ok s)
    (hvalues : ∀ (i : Nat) a, s.values[i]? = some a → values[i]? = some a) :
    Usage.Remembers values (t.usages.take k) s.vectors := by
  induction k generalizing s with
  | zero =>
    obtain rfl := Except.ok.inj hs
    exact ⟨rfl, fun v hv => (by cases hv), fun w cells hcells => (by cases hcells)⟩
  | succ k ih =>
    have husages : t.usages[k]? = some t.usages[k] := List.getElem?_eq_getElem hk
    have hslotted := getElem?_slotted husages
    obtain ⟨s₀, e, hs₀, he, rfl⟩ := (stateAt_succ_eq_ok_iff hslotted).mp hs
    have hvalues₀ (i : Nat) (a : V) (ha : s₀.values[i]? = some a) : values[i]? = some a :=
      hvalues i a (State.getElem?_apply ha e)
    have hstep := (ih (Nat.le_of_lt hk) hs₀ hvalues₀).step hvalues₀
      (ht.fits_of_stateAt hsize hslotted hs₀) he
    rw [List.take_add_one, husages]
    exact hstep

/-- The evaluation gets behind the first `n` usages. -/
def Reaches (t : Tape V) (r : Registry V) (traced : Bool) (initial : Array V) (n : Nat) : Prop :=
  ∃ s, t.advance r traced initial n = .ok s

theorem WellFormed.reaches_iff (ht : t.WellFormed) (hsize : initial.size = t.valueCount) {n : Nat} :
    t.Reaches r traced initial n ↔ ∃ s, t.stateAt r traced initial n = .ok s := by
  constructor
  · rintro ⟨s', hs'⟩
    obtain ⟨s, hs, -⟩ := (ht.advance_eq_ok_iff hsize).mp hs'
    exact ⟨s, hs⟩
  · rintro ⟨s, hs⟩
    exact ⟨_, (ht.advance_eq_ok_iff hsize).mpr ⟨s, hs, rfl⟩⟩

/-- The values of a state on the way stand where they stood. -/
theorem WellFormed.getElem?_values (ht : t.WellFormed) (hsize : initial.size = t.valueCount)
    (hs : t.stateAt r traced initial k = .ok s) {i : Nat} {a : V} (ha : s.values[i]? = some a) :
    (t.evaluateInPlace r traced initial).values[i]? = some a := by
  obtain ⟨more, hmore⟩ := ht.grows_of_stateAt hsize hs
  rw [hmore, Array.getElem?_append_left (Array.getElem?_eq_some_iff.mp ha).1, ha]

/-- Behind a load, the final values hold what it brought. -/
theorem WellFormed.loadedAt (ht : t.WellFormed) (hsize : initial.size = t.valueCount)
    (hk : t.slotted[k]? = some (slot, u)) (hreach : t.Reaches r traced initial (k + 1)) :
    u.LoadedAt Scalar.position (t.evaluateInPlace r traced initial).values (t.usages.take k)
      slot.firstResult := by
  obtain ⟨s', hs'⟩ := (ht.reaches_iff hsize).mp hreach
  obtain ⟨s, e, hs, he, rfl⟩ := (stateAt_succ_eq_ok_iff hk).mp hs'
  have hremembers := ht.remembers hsize (Nat.le_of_lt (lt_of_slotted hk)) hs
    fun i a => ht.getElem?_values hsize hs
  rw [← (counts_of_stateAt hsize hk hs).1]
  exact hremembers.loadedAt (fun i a => ht.getElem?_values hsize hs') he

/-- A load or a store that the evaluation gets to goes as its index is located in the vector, which
has as many cells as it was started with. -/
theorem WellFormed.outcome_of_access (ht : t.WellFormed) (hsize : initial.size = t.valueCount)
    (hk : t.slotted[k]? = some (slot, u)) (hreach : t.Reaches r traced initial k) {w x : Nat}
    (haccess : u.access? = some (w, x)) : ∃ index entries,
      (t.evaluateInPlace r traced initial).values[x]? = some index ∧
      ((t.usages.take k).filterMap Usage.starts?)[w]? = some entries ∧
      (∀ cell, locate w index (List.length entries) = .ok cell →
        t.Reaches r traced initial (k + 1)) ∧
      ∀ fault, locate w index (List.length entries) = .error fault →
        (t.evaluateInPlace r traced initial).outcome = .error fault := by
  obtain ⟨s, hs⟩ := (ht.reaches_iff hsize).mp hreach
  have hfits := ht.fits_of_stateAt hsize hk hs
  obtain ⟨hx, hw⟩ := Usage.lt_of_access haccess hfits
  have hindex := Array.getElem?_eq_getElem hx
  have hcells := Array.getElem?_eq_getElem hw
  have hremembers := ht.remembers hsize (Nat.le_of_lt (lt_of_slotted hk)) hs
    fun i a => ht.getElem?_values hsize hs
  obtain ⟨entries, hentries, hlength, -⟩ := hremembers.cells w _ hcells
  obtain ⟨hpasses, hfails⟩ := Usage.effect_of_access (r := r) haccess hfits hcells hindex
  rw [← hlength] at hpasses hfails
  refine ⟨s.values[x], entries, ht.getElem?_values hsize hs hindex, hentries,
    fun cell hcell => ?_, fun fault hfault => ?_⟩
  · obtain ⟨e, he⟩ := hpasses cell hcell
    exact (ht.reaches_iff hsize).mpr ⟨_, (stateAt_succ_eq_ok_iff hk).mpr ⟨s, e, hs, he, rfl⟩⟩
  · rw [ht.evaluateInPlace_of_effect_error hsize hk hs (hfails fault hfault)]

omit [Scalar V] in
theorem vectors_apply_of_ne {e : Effect V} (he : e.IsOf u) {w : Nat} (hw : w < s.vectors.size)
    (hne : u.vector? ≠ some w) : (s.apply e).vectors[w]? = s.vectors[w]? := by
  cases e with
  | started cells =>
    show (s.vectors.push cells)[w]? = _
    rw [Array.getElem?_push, if_neg (Nat.ne_of_lt hw)]
  | stored which cells =>
    have hwhich : which ≠ w := fun heq => hne (heq ▸ he.2)
    exact Array.getElem?_setIfInBounds_ne hwhich
  | results | compared | printed => rfl

variable [DecidableEq V]

/-- Dynamic vectors are arrays that a store at an index which is not finite fills with nan. Take a
usage that an evaluation gets to. If it loads or stores, it succeeds when its index is not finite
or names a cell, by its truncated number; else it ends the evaluation with an error that says so.
If it is a load and succeeds, its result is nan for an index that is not finite, and else what is
recalled at the truncated number: the value of the latest store to the vector at an index with the
same truncation, nan if a store at an index that is not finite came later, and the initial entry if
there was no such store. No usage changes another vector than its own. -/
theorem evaluateInPlace_accesses {number : V → Option Rat} (hnumber : Scalar.Truncates number)
    {t : Tape V} (ht : t.Reachable) (r : Registry V) (traced : Bool) {initial : Array V}
    (hsize : initial.size = t.valueCount) {k : Nat} {slot : Slot} {u : Usage V}
    (hk : t.slotted[k]? = some (slot, u)) (hreach : t.Reaches r traced initial k) :
    (∀ w x, u.access? = some (w, x) → ∃ index entries,
      (t.evaluateInPlace r traced initial).values[x]? = some index ∧
      ((t.usages.take k).filterMap Usage.starts?)[w]? = some entries ∧
      (number index = none → t.Reaches r traced initial (k + 1)) ∧
      ∀ q, number index = some q →
        (InRange q entries.length → entries.length ≤ wordCount →
          t.Reaches r traced initial (k + 1)) ∧
        (¬InRange q entries.length → (t.evaluateInPlace r traced initial).outcome
          = .error (.vectorIndex w index entries.length))) ∧
    (t.Reaches r traced initial (k + 1) → u.LoadedAt (fun a => (number a).map truncate)
      (t.evaluateInPlace r traced initial).values (t.usages.take k) slot.firstResult) ∧
    ∀ s s', t.advance r traced initial k = .ok s → t.advance r traced initial (k + 1) = .ok s' →
      ∀ w < s.vectors.size, u.vector? ≠ some w → s'.vectors[w]? = s.vectors[w]? := by
  have hwell := ht.wellFormed
  refine ⟨fun w x haccess => ?_,
    fun hreach' => (hwell.loadedAt hsize hk hreach').of_truncates hnumber,
    fun s s' hs hs' w hw hne => ?_⟩
  · obtain ⟨index, entries, hindex, hentries, hpasses, hfails⟩ :=
      hwell.outcome_of_access hsize hk hreach haccess
    refine ⟨index, entries, hindex, hentries,
      fun hnone => hpasses none (hnumber.locate_of_none hnone w _), fun q hq => ?_⟩
    obtain ⟨hin, hout⟩ := hnumber.locate_of_some hq w entries.length
    refine ⟨fun hrange hwords => ?_, fun hrange => hfails _ (hout hrange)⟩
    obtain ⟨n, hn⟩ := hin hrange hwords
    exact hpasses _ hn
  · obtain ⟨s₁, hs₁, rfl⟩ := (hwell.advance_eq_ok_iff hsize).mp hs
    obtain ⟨s₂, hs₂, rfl⟩ := (hwell.advance_eq_ok_iff hsize).mp hs'
    obtain ⟨s₁', e, hs₁', he, rfl⟩ := (stateAt_succ_eq_ok_iff hk).mp hs₂
    obtain rfl := Except.ok.inj (hs₁.symm.trans hs₁')
    exact vectors_apply_of_ne (Usage.isOf_of_effect he) hw hne

/-- A store at a fraction below zero, and a load of the cell that it fills. -/
def shiftedStore : Tape Float :=
  let stored := ((new 2 {}).push (.vector [2, 2])).push (.store 0 0 1)
  { stored.push (.load 0 2) with deps := some [3] }

/-- The index -1/2, the value that is stored, and what the caller left. -/
def shiftedInput : Array Float := #[.ofBits 0xbfe0000000000000, 7, 0, 0]

theorem evaluateInPlace_accesses_shiftedStore : shiftedStore.Reachable ∧
    Binary64.number (.ofBits 0xbfe0000000000000) = some (-1 / 2) ∧ InRange (-1 / 2) 2 ∧
    shiftedStore.Reaches .empty false shiftedInput 3 ∧
    Usage.recalled? (fun a => (Binary64.number a).map truncate)
      (shiftedStore.evaluateInPlace .empty false shiftedInput).values
      (shiftedStore.usages.take 3) 0 0 = some 7 ∧
    (shiftedStore.evaluateInPlace .empty false shiftedInput).values[3]? = some 7 := by
  have hreachable : shiftedStore.Reachable :=
    (((Reachable.new 2 {}).push (by decide)).push (by decide)).push (by decide)
      |>.withDependents rfl (by decide)
  have hsize : shiftedInput.size = shiftedStore.valueCount := rfl
  have hvalues : (shiftedStore.evaluateInPlace .empty false shiftedInput).values
      = #[.ofBits 0xbfe0000000000000, 7, 0, 7] := by decide +kernel
  have hhalf : Binary64.number (.ofBits 0xbfe0000000000000) = some (-1 / 2) := by decide +kernel
  have hrange : InRange (-1 / 2) 2 := by norm_num [InRange]
  have hstored : shiftedStore.Reaches .empty false shiftedInput 3 := by
    obtain ⟨haccess, -, -⟩ := evaluateInPlace_accesses Binary64.truncates hreachable .empty false
      hsize (k := 2) rfl ⟨_, rfl⟩
    obtain ⟨index, entries, hindex, hentries, -, hnumber⟩ := haccess 0 0 rfl
    obtain rfl : [2, 2] = entries := Option.some.inj hentries
    rw [hvalues] at hindex
    obtain rfl := Option.some.inj hindex
    exact (hnumber _ hhalf).1 hrange (by decide)
  obtain ⟨-, hloaded, -⟩ := evaluateInPlace_accesses Binary64.truncates hreachable .empty false
    hsize (k := 3) rfl hstored
  obtain ⟨index, hindex, -, hsome⟩ := hloaded ⟨_, by with_unfolding_all rfl⟩ 0 2 rfl
  rw [hvalues] at hindex
  obtain rfl := Option.some.inj hindex
  obtain ⟨n, v, hn, hrecall, hv⟩ := hsome 0 (by decide +kernel)
  obtain rfl : n = 0 := by omega
  obtain rfl : 7 = v := by
    rw [hvalues] at hv
    exact Option.some.inj hv
  exact ⟨hreachable, hhalf, hrange, hstored, hrecall, hv⟩

/-- A vector without cells that is stored to. -/
def emptyVector : Tape Float :=
  { ((new 1 {}).push (.vector [])).push (.store 0 0 0) with deps := some [0] }

/-- A vector without cells refuses an index between -1 and its size. -/
theorem emptyVector_refuses :
    let index : Float := .ofBits 0xbfe0000000000000
    emptyVector.Reachable ∧
    (emptyVector.usages.filterMap Usage.starts?)[0]? = some [] ∧
    Binary64.number index = some (-1 / 2) ∧
    (-1 : Rat) < -1 / 2 ∧ (-1 / 2 : Rat) < ([] : List Nat).length ∧
    (emptyVector.evaluateInPlace .empty false #[index, 0]).outcome
      = .error (.vectorIndex 0 index 0) := by
  refine ⟨?_, rfl, by decide +kernel, by norm_num, by norm_num, by with_unfolding_all rfl⟩
  exact ((Reachable.new 1 {}).push (by decide)).push (by decide) |>.withDependents rfl (by decide)

end Tape

end OpTape
