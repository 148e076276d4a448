import OpTape.Folding
import OpTape.Proofs.Agreement
import OpTape.Proofs.Renaming
/-
  What constant folding knows. `Known.Sound` is the invariant of the walk: a value that is known
  is the value of every evaluation, whatever the independents are. `Visited` says what the walk
  can decide on a usage. Where it decides anything but a copy, what it computes from known values
  is what an evaluation computes, and a registered function gives its constant results whatever
  its other inputs are (`Visited.sound`). The walk gives such a function an undefined value for
  each input that is not known, which it may refuse (`Known.RefusesUnknown`).
-/
namespace OpTape

variable {V : Type}

namespace Usage

/-- Folding computes the usage as soon as all its operands are known. -/
def isPlain : Usage V → Bool
  | unary _ _ | binary _ _ _ | discrete _ _ | sum _ _ => true
  | _ => false

theorem isPure_of_isPlain {u : Usage V} (h : u.isPlain) : u.isPure := by
  cases u <;> first | rfl | cases h

end Usage

namespace Known

/-- What is known is true. -/
structure Sound (known : Known V) (values : Array V) : Prop where
  size : known.size = values.size
  value : ∀ {i v}, known.value? i = some v → values[i]? = some v

variable {known : Known V} {values : Array V}

theorem Sound.append (h : known.Sound values) {results : List (Option V)} {vals : List V}
    (hlength : results.length = vals.length)
    (hvals : ∀ (k : Nat) (v : V), results[k]? = some (some v) → vals[k]? = some v) :
    Known.Sound (known ++ results : Array (Option V)) (values ++ vals.toArray) where
  size := by
    rw [append_list_eq, Array.size_append, Array.size_append, h.size]
    simp [hlength]
  value {i v} hv := by
    unfold value? at hv
    rw [append_list_eq, Array.getElem?_append] at hv
    split at hv
    · rename_i hlt
      rw [Array.getElem?_append_left (h.size ▸ hlt)]
      exact h.value hv
    · rename_i hge
      have hge' : values.size ≤ i := h.size ▸ Nat.le_of_not_lt hge
      rw [Array.getElem?_append_right hge', List.getElem?_toArray]
      rw [List.getElem?_toArray, Option.join_eq_some_iff, h.size] at hv
      exact hvals _ _ hv

theorem getElem?_restrict {flags : List Bool} {vals : List V} {k : Nat} {o : Option V}
    (h : (restrict flags vals)[k]? = some o) :
    ∃ v, vals[k]? = some v ∧
      (flags[k]? = some true ∧ o = some v ∨ flags[k]? = some false ∧ o = none) := by
  unfold restrict at h
  rw [List.getElem?_map, Option.map_eq_some_iff] at h
  obtain ⟨⟨flag, v⟩, hzip, rfl⟩ := h
  rw [List.getElem?_zip_eq_some] at hzip
  refine ⟨v, hzip.2, ?_⟩
  cases flag with
  | true => exact Or.inl ⟨hzip.1, rfl⟩
  | false => exact Or.inr ⟨hzip.1, rfl⟩

theorem length_restrict {n : Nat} (flags : Vector Bool n) (vals : Vector V n) :
    (restrict flags.toList vals.toList).length = n := by
  simp [restrict]

/-- What a restriction has is there in any results that agree where there is a flag. -/
theorem getElem?_of_restrict {n : Nat} {flags : Vector Bool n} {vals res : Vector V n}
    (hsame : ∀ k : Nat, flags.toList[k]? = some true → res[k]? = vals[k]?) {k : Nat} {v : V}
    (h : (restrict flags.toList vals.toList)[k]? = some (some v)) :
    res.toList[k]? = some v := by
  obtain ⟨a, ha, ⟨hflag, heq⟩ | ⟨-, heq⟩⟩ := getElem?_restrict h
  · obtain rfl := Option.some.inj heq
    have hres := hsame k hflag
    simp only [Vector.getElem?_toList] at ha ⊢
    rw [hres, ha]
  · cases heq

theorem eq_of_all {n : Nat} {flags : Vector Bool n} {vals res : Vector V n}
    (hall : flags.toList.all (·))
    (hsame : ∀ k : Nat, flags.toList[k]? = some true → res[k]? = vals[k]?) : res = vals := by
  refine Vector.ext fun k hk => ?_
  have hflag : flags[k] = true := List.all_eq_true.mp hall _ (by simp)
  have hk' := hsame k (by simp [hk, hflag])
  simpa [hk] using hk'

variable [Scalar V]

theorem Sound.operand_eq (h : known.Sound values) {i : Nat} {v : V}
    (hv : known.value? i = some v) : known.operand i = entry values i := by
  have hknown : known[i]? = some (some v) := Option.join_eq_some_iff.mp hv
  have hentry : (entry known i : Except (Fault V) (Option V)) = .ok (some v) :=
    entry_eq_ok_iff.mpr hknown
  have hvalue : (entry values i : Except (Fault V) V) = .ok v := entry_eq_ok_iff.mpr (h.value hv)
  unfold operand
  rw [hentry, hvalue]
  rfl

theorem lt_of_operand {i : Nat} {v : V} (h : known.operand i = .ok v) : i < known.size := by
  obtain ⟨o, ho, -⟩ := bind_eq_ok_iff.mp h
  exact (Array.getElem?_eq_some_iff.mp (entry_eq_ok_iff.mp ho)).1

/-- Folding gives a registered function the inputs of an evaluation, undefined where they are not
known. -/
theorem Sound.mapM_operand (h : known.Sound values) {inputs : List Nat} {y : List V}
    (hy : inputs.mapM (entry values) = (.ok y : Except (Fault V) (List V))) :
    inputs.mapM known.operand = .ok (substituted Scalar.nan (inputs.map known.isKnown) y) := by
  induction inputs generalizing y with
  | nil =>
    obtain rfl := Except.ok.inj hy
    rfl
  | cons i inputs ih =>
    simp only [List.mapM_cons, bind_eq_ok_iff, entry_eq_ok_iff] at hy
    obtain ⟨v, hv, y, hy, heq⟩ := hy
    obtain rfl := Except.ok.inj heq
    have hoperand : known.operand i
        = .ok (if known.isKnown i then v else Scalar.nan) := by
      cases hi : known.value? i with
      | some w =>
        obtain rfl : w = v := Option.some.inj ((h.value hi).symm.trans hv)
        rw [h.operand_eq hi, entry_eq_ok_iff.mpr hv]
        simp [isKnown, hi]
      | none =>
        have hlt : i < known.size := h.size ▸ (Array.getElem?_eq_some_iff.mp hv).1
        have hknown : known[i]? = some known[i] := Array.getElem?_eq_getElem hlt
        have hnone : known[i] = none := by
          unfold value? at hi
          rwa [hknown] at hi
        have hunknown : known.isKnown i = false := by rw [isKnown, hi, Option.isSome_none]
        rw [operand, entry_eq_ok_iff.mpr hknown, hnone, hunknown]
        rfl
    simp only [List.mapM_cons, bind_eq_ok_iff]
    exact ⟨_, hoperand, _, ih hy, rfl⟩

/-- What the walk can decide on a usage. -/
inductive Visited (r : Registry V) (known : Known V) :
    Usage V → List (Option V) → Action V → Prop
  | untouched (u : Usage V) : Visited r known u (List.replicate u.resultCount none) .copy
  | constant (v : V) : Visited r known (.constant v) [some v] .copy
  | settled {cmp : Comparison} {x y : Nat} {a b : V} (ha : known.value? x = some a)
      (hb : known.value? y = some b) (hheld : cmp.holds a b = true) :
      Visited r known (.compare cmp x y) [] .drop
  | chosen {cmp : Comparison} {x y ifTrue ifFalse : Nat} {a b : V}
      (ha : known.value? x = some a) (hb : known.value? y = some b) :
      Visited r known (.select cmp x y ifTrue ifFalse)
        [known.value? (if cmp.holds a b then ifTrue else ifFalse)]
        (.reuse (if cmp.holds a b then ifTrue else ifFalse))
  | computed {u : Usage V} {vals : List V} (hu : u.isPure)
      (hreads : ∀ i ∈ u.reads, ∃ v, known.value? i = some v)
      (hvals : u.compute r known.operand = .ok vals) :
      Visited r known u (vals.map some) (.constants vals)
  | applied {family : Family} {id callId n : Nat} {inputs : List Nat} {flags : Vector Bool n}
      {x : List V} {vals : Vector V n}
      (hflags : r.constancy family id callId (inputs.map known.isKnown) n = .ok flags)
      (hany : flags.toList.any (·)) (hx : inputs.mapM known.operand = .ok x)
      (hvals : r.apply family id callId x n = .ok vals) (hall : flags.toList.all (·)) :
      Visited r known (.foreign family id callId n inputs)
        (restrict flags.toList vals.toList) (.constants vals.toList)
  | folded {family : Family} {id callId n : Nat} {inputs : List Nat} {flags : Vector Bool n}
      {x : List V} {vals : Vector V n}
      (hflags : r.constancy family id callId (inputs.map known.isKnown) n = .ok flags)
      (hany : flags.toList.any (·)) (hx : inputs.mapM known.operand = .ok x)
      (hvals : r.apply family id callId x n = .ok vals) :
      Visited r known (.foreign family id callId n inputs)
        (restrict flags.toList vals.toList) (.foldResults (restrict flags.toList vals.toList))

theorem visit_of_isPlain {r : Registry V} {u : Usage V} (hu : u.isPlain) :
    known.visit r u = if u.reads.all known.isKnown then
        (fun vals => (vals.map some, .constants vals)) <$> u.compute r known.operand
      else .ok (untouched u) := by
  have hreads : u.reads = u.args := by
    cases u <;> simp_all [Usage.isPlain, Usage.reads, Usage.initials]
  rw [hreads, map_eq_pure_bind]
  cases u with
  | unary | binary | discrete | sum => rfl
  | _ => cases hu

theorem visited_of_visit {r : Registry V} {u : Usage V} {results : List (Option V)}
    {action : Action V} (h : known.visit r u = .ok (results, action)) :
    Visited r known u results action := by
  have huntouched {w : Usage V}
      (h : (.ok (untouched w) : Except (Fault V) _) = .ok (results, action)) :
      Visited r known w results action := by
    obtain ⟨rfl, rfl⟩ := Prod.mk.inj (Except.ok.inj h)
    exact .untouched w
  have hplain {w : Usage V} (hw : w.isPlain) (h : known.visit r w = .ok (results, action)) :
      Visited r known w results action := by
    rw [visit_of_isPlain hw] at h
    split at h
    · rename_i hall
      obtain ⟨vals, hvals, h⟩ := map_eq_ok_iff.mp h
      obtain ⟨rfl, rfl⟩ := Prod.mk.inj h
      refine .computed (Usage.isPure_of_isPlain hw) (fun i hi => ?_) hvals
      exact Option.isSome_iff_exists.mp (List.all_eq_true.mp hall i hi)
    · exact huntouched h
  cases u with
  | constant v =>
    obtain ⟨rfl, rfl⟩ := Prod.mk.inj (Except.ok.inj h)
    exact .constant v
  | compare cmp x y =>
    simp only [visit] at h
    split at h
    · rename_i a b ha hb
      obtain ⟨rfl, rfl⟩ := Prod.mk.inj (Except.ok.inj h)
      by_cases hheld : cmp.holds a b = true
      · rw [if_pos hheld]
        exact .settled ha hb hheld
      · rw [if_neg hheld]
        exact .untouched (.compare cmp x y)
    · exact huntouched h
  | select cmp x y ifTrue ifFalse =>
    simp only [visit] at h
    split at h
    · rename_i a b ha hb
      obtain ⟨rfl, rfl⟩ := Prod.mk.inj (Except.ok.inj h)
      exact .chosen ha hb
    · exact huntouched h
  | foreign family id callId n inputs =>
    simp only [visit] at h
    obtain ⟨flags, hflags, h⟩ := bind_eq_ok_iff.mp h
    split at h
    · rename_i hany
      obtain ⟨vals, hvals, h⟩ := bind_eq_ok_iff.mp h
      obtain ⟨x, hx, hvals⟩ := bind_eq_ok_iff.mp hvals
      obtain ⟨res, hres, hvals⟩ := bind_eq_ok_iff.mp hvals
      obtain rfl := Except.ok.inj hvals
      split at h
      · rename_i hall
        obtain ⟨rfl, rfl⟩ := Prod.mk.inj (Except.ok.inj h)
        exact .applied hflags hany hx hres hall
      · obtain ⟨rfl, rfl⟩ := Prod.mk.inj (Except.ok.inj h)
        exact .folded hflags hany hx hres
    · exact huntouched h
  | print | vector | load | store => exact huntouched h
  | unary | binary | discrete | sum => exact hplain rfl h

/-! ## What an evaluation does with such usages -/

section

variable {r : Registry V} {vectors : Array (Array V)}

theorem Sound.effect_compare (h : known.Sound values) (r : Registry V)
    (vectors : Array (Array V)) (cmp : Comparison) {x y : Nat} {a b : V}
    (ha : known.value? x = some a) (hb : known.value? y = some b) :
    (Usage.compare cmp x y).effect r values vectors = .ok (.compared (cmp.holds a b)) := by
  have hx : (entry values x : Except (Fault V) V) = .ok a := entry_eq_ok_iff.mpr (h.value ha)
  have hy : (entry values y : Except (Fault V) V) = .ok b := entry_eq_ok_iff.mpr (h.value hb)
  simp only [Usage.effect, hx, hy]
  rfl

/-- A select between known values is its branch. -/
theorem Sound.effect_select (h : known.Sound values) {cmp : Comparison}
    {x y ifTrue ifFalse : Nat} {a b : V} (ha : known.value? x = some a)
    (hb : known.value? y = some b) :
    (Usage.select cmp x y ifTrue ifFalse).effect r values vectors
      = (fun v => .results [v]) <$> entry values (if cmp.holds a b then ifTrue else ifFalse) := by
  have hx : (entry values x : Except (Fault V) V) = .ok a := entry_eq_ok_iff.mpr (h.value ha)
  have hy : (entry values y : Except (Fault V) V) = .ok b := entry_eq_ok_iff.mpr (h.value hb)
  have hcompute : (Usage.select cmp x y ifTrue ifFalse).compute r (entry values)
      = (fun v => [v]) <$> entry values (if cmp.holds a b then ifTrue else ifFalse) := by
    rw [map_eq_pure_bind]
    simp only [Usage.compute, hx, hy]
    rfl
  rw [Usage.effect_of_isPure rfl, hcompute, Functor.map_map]

theorem Sound.effect_pure (h : known.Sound values) (vectors : Array (Array V)) {u : Usage V}
    (hu : u.isPure)
    (hreads : ∀ i ∈ u.reads, ∃ v, known.value? i = some v) {vals : List V}
    (hvals : u.compute r known.operand = .ok vals) :
    u.effect r values vectors = .ok (.results vals) := by
  have hsame : u.compute r (entry values) = .ok vals := by
    rw [← hvals]
    refine u.compute_congr r fun i hi => ?_
    obtain ⟨v, hv⟩ := hreads i hi
    exact (h.operand_eq hv).symm
  rw [Usage.effect_of_isPure hu, hsame]
  rfl

/-- A registered function has in an evaluation the constant results that folding found. -/
theorem Sound.same_foreign (hr : r.KeepsConstants) (h : known.Sound values) {family : Family}
    {id callId n : Nat} {inputs : List Nat} {flags : Vector Bool n} {x : List V} {vals : Vector V n}
    (hflags : r.constancy family id callId (inputs.map known.isKnown) n = .ok flags)
    (hx : inputs.mapM known.operand = .ok x) (hvals : r.apply family id callId x n = .ok vals)
    {e : Effect V}
    (he : (Usage.foreign family id callId n inputs).effect r values vectors = .ok e) :
    ∃ res : Vector V n, e = .results res.toList ∧
      ∀ k : Nat, flags.toList[k]? = some true → res[k]? = vals[k]? := by
  obtain ⟨y, res, hy, hres, rfl⟩ := Usage.effect_foreign_eq_ok he
  obtain rfl := Except.ok.inj (hx.symm.trans (h.mapM_operand hy))
  have hlength : (inputs.map known.isKnown).length = y.length := by
    rw [List.length_map, length_of_mapM_ok hy]
  exact ⟨res, rfl, hr.sameResults hflags (agreeOn_substituted Scalar.nan hlength) res vals hres
    hvals⟩

/-- A registered function that has constant results, and is right about them, cannot fail where
folding evaluated it. -/
theorem Sound.exists_effect_foreign (hr : r.SoundConstancy) (h : known.Sound values)
    (vectors : Array (Array V)) {family : Family} {id callId n : Nat} {inputs : List Nat}
    {flags : Vector Bool n} {x : List V} {vals : Vector V n}
    (hflags : r.constancy family id callId (inputs.map known.isKnown) n = .ok flags)
    (hany : flags.toList.any (·)) (hx : inputs.mapM known.operand = .ok x)
    (hvals : r.apply family id callId x n = .ok vals) :
    ∃ e, (Usage.foreign family id callId n inputs).effect r values vectors = .ok e := by
  have hlt : ∀ i ∈ inputs, ∃ v, (entry values i : Except (Fault V) V) = .ok v := by
    intro i hi
    obtain ⟨v, hv⟩ := ok_of_mem_mapM hx hi
    exact ⟨_, entry_eq_ok_iff.mpr (Array.getElem?_eq_getElem (h.size ▸ lt_of_operand hv))⟩
  obtain ⟨y, hy⟩ := exists_mapM_ok hlt
  obtain rfl := Except.ok.inj (hx.symm.trans (h.mapM_operand hy))
  have hlength : (inputs.map known.isKnown).length = y.length := by
    rw [List.length_map, length_of_mapM_ok hy]
  obtain ⟨res, hres, -⟩ := ((hr.sameOn hany hflags
    (agreeOn_substituted Scalar.nan hlength)).symm).exists_ok hvals
  rw [Usage.effect_foreign r vectors hy, hres]
  exact ⟨_, rfl⟩

end

/-- What the walk takes to be known behind a usage is true there. -/
theorem Visited.sound {r : Registry V} (hr : r.KeepsConstants) {u : Usage V}
    {results : List (Option V)} {action : Action V} (hv : Visited r known u results action)
    (h : known.Sound values) {vectors : Array (Array V)} {e : Effect V}
    (he : u.effect r values vectors = .ok e) :
    Known.Sound (known ++ results : Array (Option V)) (values ++ e.appended.toArray) := by
  cases hv with
  | untouched u =>
    refine h.append ?_ fun k v hk => ?_
    · rw [List.length_replicate, (Usage.isOf_of_effect he).counts.1]
    · simp [List.getElem?_replicate] at hk
  | constant v =>
    obtain rfl := Except.ok.inj he
    exact h.append rfl fun k v hk => by simpa [Effect.appended, List.getElem?_singleton] using hk
  | settled ha hb hheld =>
    rw [h.effect_compare r vectors _ ha hb] at he
    obtain rfl := Except.ok.inj he
    exact h.append rfl fun k v hk => by simp at hk
  | chosen ha hb =>
    rw [h.effect_select ha hb, map_eq_ok_iff] at he
    obtain ⟨v, hbranch, rfl⟩ := he
    refine h.append rfl fun k v' hk => ?_
    cases k with
    | zero =>
      have hv' := h.value (Option.some.inj hk)
      show some v = some v'
      rw [← hv', entry_eq_ok_iff.mp hbranch]
    | succ k => simp at hk
  | @computed u vals hu hreads hvals =>
    rw [h.effect_pure vectors hu hreads hvals] at he
    obtain rfl := Except.ok.inj he
    refine h.append (by simp [Effect.appended]) fun k v hk => ?_
    show vals[k]? = some v
    simpa using hk
  | applied hflags hany hx hvals | folded hflags hany hx hvals =>
    obtain ⟨res, rfl, hsame⟩ := h.same_foreign hr hflags hx hvals he
    exact h.append (by simp [length_restrict, Effect.appended]) fun k v hk =>
      getElem?_of_restrict hsame hk

end Known

end OpTape
