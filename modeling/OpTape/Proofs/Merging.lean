import OpTape.Packed
import OpTape.Proofs.Doubles
import OpTape.Proofs.Reachable
import OpTape.Proofs.Running
/-
  Merging equal usages changes what is read and nothing else. `Merge.Holds` is the invariant of
  the walk at run time: a value and the first of its equals are the same, and a usage that was
  seen gives, on the values so far, what stands behind its first result. Results never change
  once they are there, so both survive every later usage, and the old and the merged tape go
  through the same states. Every usage keeps its shape (`Packed.SameShape`).
-/
namespace OpTape

variable {V : Type}

namespace Usage

theorem isPure_of_isMergeable {u : Usage V} (h : u.isMergeable) : u.isPure := by
  cases u <;> simp_all [isMergeable, isPure, resultCount]

end Usage

/-- The operators whose operands may be exchanged give the same both ways round. -/
def Scalar.Commutes (V : Type) [Scalar V] : Prop :=
  ∀ op : BinaryOp, op.isCommutative → ∀ a b : V, Scalar.binary op a b = Scalar.binary op b a

theorem Binary64.commutes : Scalar.Commutes Float := by
  intro op hop a b
  cases op with
  | add => exact add_comm a b
  | mul => exact mul_comm a b
  | sub | div | pow => cases hop

/-- Bringing the operands in order does not show where values of operands exist. -/
theorem Usage.compute_ordered [Scalar V] (hcomm : Scalar.Commutes V) (u : Usage V)
    (r : Registry V) {values : Array V} (hreads : ∀ i ∈ u.reads, i < values.size) :
    u.ordered.compute r (entry values) = u.compute r (entry values) := by
  cases u with
  | binary op x y =>
    simp only [ordered]
    split
    · rename_i hop
      have hx : x < values.size := hreads x (by simp [reads, args])
      have hy : y < values.size := hreads y (by simp [reads, args])
      have hx' : entry (V := V) values x = .ok values[x] := by simp [entry, hx]
      have hy' : entry (V := V) values y = .ok values[y] := by simp [entry, hy]
      simp only [Bool.and_eq_true] at hop
      simp only [compute, hx', hy']
      show Except.ok [Scalar.binary op values[y] values[x]]
        = Except.ok [Scalar.binary op values[x] values[y]]
      rw [hcomm op hop.1]
    · rfl
  | _ => rfl

namespace Merge

variable [Scalar V]

/-- On the values so far, equal values are the same, and what was seen computes what stands
behind its first result. -/
structure Holds (m : Merge V) (r : Registry V) (values : Array V) : Prop where
  size : values.size = m.tape.valueCount
  equal : ∀ {i j}, m.value? i = some j → values[j]? = values[i]?
  seen : ∀ {v first}, (v, first) ∈ m.seen → ∃ vals, v.compute r (entry values) = .ok vals ∧
    ∀ k < vals.length, values[first + k]? = vals[k]?

/-- One merged usage does what the usage did, faults included. -/
theorem Holds.exec_eq {m : Merge V} {r : Registry V} {s : State V} (h : m.Holds r s.values)
    {u u' : Usage V} (hu : Usage.Renames m.value? some u u') : s.exec r u' = s.exec r u := by
  have heffect : u'.effect r s.values s.vectors = u.effect r s.values s.vectors := by
    refine hu.effect_eq r (fun i _ j hij => h.equal hij) fun w _ w' hww' => ?_
    exact ⟨(Option.some.inj hww').symm, rfl⟩
  simp only [State.exec, heffect, hu.spoil_eq]

theorem holds_start (t : Tape V) (r : Registry V) {independents : Array V}
    (hsize : independents.size = t.indCount) :
    (start t).Holds r (independents.push Scalar.zero) where
  size := by
    rw [Array.size_push, hsize]
    rfl
  equal hij := by
    obtain ⟨-, rfl⟩ := (value?_start t).mp hij
    rfl
  seen {v first} h := by
    obtain ⟨rfl, rfl⟩ : v = .constant Scalar.zero ∧ first = t.indCount := by
      simpa [start, Tape.zeroIndex] using h
    refine ⟨[Scalar.zero], rfl, fun k hk => ?_⟩
    obtain rfl : k = 0 := by simpa using hk
    simp [← hsize]

variable [DecidableEq V]

/-- Where the operators commute, a usage that is recorded with its results keeps what the walk
knows true. -/
theorem Holds.record (hcomm : Scalar.Commutes V) {m : Merge V} (hm : m.Ordered)
    {r : Registry V} {values : Array V} (h : m.Holds r values) {u : Usage V} {vals : List V}
    (hreads : ∀ i ∈ u.reads, i < m.tape.valueCount) (hlength : vals.length = u.resultCount)
    (hvals : u.isPure → u.compute r (entry values) = .ok vals) :
    (m.record u).Holds r (values ++ vals.toArray) := by
  have hordered (hpure : u.isPure) : u.ordered.compute r (entry values) = .ok vals := by
    rw [Usage.compute_ordered hcomm u r fun i hi => h.size ▸ hreads i hi, hvals hpure]
  -- what a usage computes from values that were there stays the same
  have hstable {v : Usage V} (hv : ∀ i ∈ v.reads, i < m.tape.valueCount) :
      v.compute r (entry (values ++ vals.toArray)) = v.compute r (entry values) :=
    v.compute_congr r fun i hi => entry_append_left (h.size ▸ hv i hi)
  have hlast (k : Nat) : (values ++ vals.toArray)[m.tape.valueCount + k]? = vals[k]? := by
    rw [← h.size, Array.getElem?_append_right (Nat.le_add_right _ _), Nat.add_sub_cancel_left]
    exact List.getElem?_toArray ..
  refine ⟨?_, fun {i j} hij => ?_, fun {v first} hv => ?_⟩
  · show (values ++ vals.toArray).size = m.tape.valueCount + u.resultCount
    rw [Array.size_append, h.size, ← hlength]
    rfl
  · rcases value?_record_cases hij with hij | ⟨k, hk, rfl, rfl⟩
    · have hi : i < values.size := by
        rw [h.size, ← hm.size]
        exact (Array.getElem?_eq_some_iff.mp hij).1
      have hj : j < values.size := Nat.lt_of_le_of_lt (hm.le hij) hi
      rw [Array.getElem?_append_left hi, Array.getElem?_append_left hj, h.equal hij]
    · rw [hm.size, hlast]
      rcases m.source_cases u with heq | ⟨hmerge, hseen⟩
      · rw [heq, hlast]
      · obtain ⟨vals', hvals', hfirst⟩ := h.seen hseen
        obtain rfl : vals = vals' :=
          Except.ok.inj ((hordered (Usage.isPure_of_isMergeable hmerge)).symm.trans hvals')
        have hfound := hfirst k (hlength ▸ hk)
        have hlt : m.source u + k < values.size := by
          have hle := (hm.seen hseen).1
          rw [Usage.resultCount_ordered] at hle
          rw [h.size]
          omega
        rw [Array.getElem?_append_left hlt, hfound]
  · rcases mem_seen_record hv with hv | ⟨hmerge, rfl, rfl⟩
    · obtain ⟨vals', hvals', hfirst⟩ := h.seen hv
      refine ⟨vals', by rw [hstable (hm.seen hv).2, hvals'], fun k hk => ?_⟩
      have hfound := hfirst k hk
      have hlt : first + k < values.size := by
        rw [List.getElem?_eq_getElem hk] at hfound
        exact (Array.getElem?_eq_some_iff.mp hfound).1
      rw [Array.getElem?_append_left hlt, hfound]
    · refine ⟨vals, ?_, fun k _ => hlast k⟩
      rw [hstable fun i hi => hreads i (Usage.mem_reads_ordered.mp hi)]
      exact hordered (Usage.isPure_of_isMergeable hmerge)

/-- The merged usages run like the usages did, and what the walk knows holds at the end. -/
theorem Walk.execAll_eq (hcomm : Scalar.Commutes V) {m m' : Merge V}
    {us us' : List (Usage V)} (h : Walk m us us' m') (hm : m.Ordered)
    {r : Registry V} {s : State V} (hs : m.Holds r s.values) :
    s.execAll r us' = s.execAll r us ∧
      ∀ {s'}, s.execAll r us = .ok s' → m'.Holds r s'.values := by
  induction h generalizing s with
  | nil =>
    refine ⟨rfl, fun hs' => ?_⟩
    obtain rfl := Except.ok.inj hs'
    exact hs
  | @cons m m' u u' us us' hu _ ih =>
    rw [State.execAll_cons, State.execAll_cons, hs.exec_eq hu]
    cases hexec : s.exec r u with
    | error halt =>
      refine ⟨rfl, fun hs' => ?_⟩
      cases hs'
    | ok s₁ =>
      have hreads : ∀ j ∈ u'.reads, j < m.tape.valueCount := fun _ hj => hm.lt_of_renames hu hj
      refine ih (hm.record hreads) ?_
      rw [← hs.exec_eq hu, State.exec_eq_ok_iff] at hexec
      obtain ⟨e, he, rfl⟩ := hexec
      rw [State.values_apply]
      refine hs.record hcomm hm hreads (Usage.isOf_of_effect he).counts.1.symm fun hpure => ?_
      rw [Usage.effect_of_isPure hpure, map_eq_ok_iff] at he
      obtain ⟨vals, hvals, rfl⟩ := he
      exact hvals

end Merge

/-! ## Columns -/

/-- Two packed tapes that differ in no more than the values that are read. -/
structure Packed.SameShape (p q : Packed V) : Prop where
  kinds : p.kinds = q.kinds
  args : p.args.size = q.args.size
  constants : p.constants = q.constants
  strings : p.strings = q.strings
  vectors : p.vectors.size = q.vectors.size

theorem Packed.SameShape.refl (p : Packed V) : p.SameShape p := ⟨rfl, rfl, rfl, rfl, rfl⟩

/-- Renaming operands keeps the shape. -/
theorem Packed.SameShape.push {p q : Packed V} (h : p.SameShape q) {value : Nat → Option Nat}
    {u u' : Usage V} (hu : Usage.Renames value some u u') : (p.push u).SameShape (q.push u') := by
  obtain ⟨hkinds, hargs, hconstants, hstrings, hvectors⟩ := h
  have hslice : (p.slice u).length = (q.slice u').length := by
    cases hu with
    | sum hadd hsub => simp [slice, length_of_mapM_some hadd, length_of_mapM_some hsub]
    | foreign hinputs => simp [slice, length_of_mapM_some hinputs]
    | _ => rfl
  have hkinds' : p.kinds.push u.kind = q.kinds.push u'.kind := by rw [hkinds, hu.kind_eq]
  have hargs' : (p.args ++ p.slice u).size = (q.args ++ q.slice u').size := by
    rw [append_list_eq, append_list_eq, Array.size_append, Array.size_append, hargs]
    simp [hslice]
  cases hu with
  | constant v => exact ⟨hkinds', hargs', by simp [Packed.push, hconstants], hstrings, hvectors⟩
  | vector => exact ⟨hkinds', hargs', hconstants, hstrings, by simp [Packed.push, hvectors]⟩
  | print => exact ⟨hkinds', hargs', hconstants, by simp [Packed.push, hstrings], hvectors⟩
  | _ => exact ⟨hkinds', hargs', hconstants, hstrings, hvectors⟩

theorem Packed.SameShape.foldl {value : Nat → Option Nat} {us us' : List (Usage V)}
    (hus : List.Forall₂ (Usage.Renames value some) us us') {p q : Packed V}
    (h : p.SameShape q) : (us.foldl Packed.push p).SameShape (us'.foldl Packed.push q) := by
  induction hus generalizing p q with
  | nil => exact h
  | cons hu _ ih => exact ih (h.push hu)

namespace Tape

variable [Scalar V] [DecidableEq V] {t t' : Tape V}

theorem sameShape_of_mergeEqual (h : t.mergeEqual = .ok t') : t.pack.SameShape t'.pack := by
  obtain ⟨us', m, deps, hwalk, -, rfl⟩ := mergeEqual_eq_ok_iff.mp h
  exact .foldl hwalk.renames_usages (.refl {})

/-- No column of a tape becomes longer or shorter. -/
theorem stats_of_mergeEqual (h : t.mergeEqual = .ok t') : t'.stats = t.stats := by
  have hshape := sameShape_of_mergeEqual h
  obtain ⟨us', m, deps, hwalk, hdeps, rfl⟩ := mergeEqual_eq_ok_iff.mp h
  have hind : m.tape.indCount = t.indCount := hwalk.inherits.1
  have hvalues := valueCount_of_walk hwalk
  have hcount : (deps.getD []).length = t.dependents.length :=
    length_of_mapM_some (mapM_dependents hdeps)
  simp only [stats, hshape.kinds, hshape.args, hshape.constants, hshape.strings, hshape.vectors,
    hind, hvalues]
  congr 1

/-- A merged tape evaluates like the tape, to the last value, from any starting vector. -/
theorem evaluate_of_mergeEqual (hcomm : Scalar.Commutes V) (h : t.mergeEqual = .ok t')
    (r : Registry V) (initial : Array V) :
    t'.evaluate r false initial = t.evaluate r false initial := by
  obtain ⟨us', m, deps, hwalk, hdeps, heq⟩ := mergeEqual_eq_ok_iff.mp h
  have hind : t'.indCount = t.indCount := heq ▸ hwalk.inherits.1
  have hvalues : t'.valueCount = t.valueCount := heq ▸ valueCount_of_walk hwalk
  have hbody : t'.body.toList = us' := heq ▸ hwalk.body_eq
  have hdependents : t.dependents.mapM m.value? = some t'.dependents :=
    heq ▸ mapM_dependents hdeps
  by_cases hsize : initial.size = t.valueCount
  · have hstart : (initial.extract 0 t.indCount).size = t.indCount := by
      have hcount := t.valueCount_eq
      rw [Array.size_extract]
      omega
    have hholds := Merge.holds_start t r hstart
    obtain ⟨hexec, hlast⟩ := hwalk.execAll_eq hcomm (Merge.ordered_start t)
      (s := { values := (initial.extract 0 t.indCount).push Scalar.zero }) hholds
    simp only [evaluate, hvalues, hsize, if_true, hind, Bool.false_eq_true, if_false, run_noted,
      hbody, hexec]
    cases hrun : State.execAll r { values := (initial.extract 0 t.indCount).push Scalar.zero }
        t.body.toList with
    | error halt => rfl
    | ok s =>
      have hread : t'.dependents.mapM (entry s.values)
          = (t.dependents.mapM (entry s.values) : Except (Fault V) (List V)) := by
        refine mapM_congr_of_mapM hdependents fun i _ j hij => ?_
        simp only [entry, (hlast hrun).equal hij]
      simp only [hread]
  · simp only [evaluate, hvalues, if_neg hsize]

/-- Merging equal usages cannot fail and keeps the whole evaluation: its outcome, fault or not,
every value on the way and the text that is written. The operators, constants, strings and
options stay, and so do all counts. -/
theorem mergeEqual_preserves (hcomm : Scalar.Commutes V) (ht : t.Reachable) :
    ∃ t', t.mergeEqual = .ok t' ∧
      (∀ r initial, t'.evaluate r false initial = t.evaluate r false initial) ∧
      t'.pack.kinds = t.pack.kinds ∧ t'.pack.constants = t.pack.constants ∧
      t'.pack.strings = t.pack.strings ∧ t'.options = t.options ∧ t'.stats = t.stats := by
  obtain ⟨t', h⟩ := ht.wellFormed.exists_mergeEqual
  have hshape := sameShape_of_mergeEqual h
  have hoptions : t'.options = t.options := by
    obtain ⟨us', m, deps, hwalk, -, rfl⟩ := mergeEqual_eq_ok_iff.mp h
    exact hwalk.inherits.2
  exact ⟨t', h, evaluate_of_mergeEqual hcomm h, hshape.kinds.symm, hshape.constants.symm,
    hshape.strings.symm, hoptions, stats_of_mergeEqual h⟩

/-- The sum of two doubles, and the same sum the other way round. -/
def twoSums : Tape Float :=
  { ((new 2 {}).push (.binary .add 0 1)).push (.binary .add 1 0) with deps := some [3, 4] }

theorem mergeEqual_twoSums : Scalar.Commutes Float ∧ twoSums.Reachable ∧
    ∃ t', twoSums.mergeEqual = .ok t' ∧
      ∀ r initial, t'.evaluate r false initial = twoSums.evaluate r false initial := by
  have hreachable : twoSums.Reachable :=
    (((Reachable.new 2 {}).push (by decide)).push (by decide)).withDependents rfl (by decide)
  obtain ⟨t', h, heval, -⟩ := mergeEqual_preserves Binary64.commutes hreachable
  exact ⟨Binary64.commutes, hreachable, t', h, heval⟩

end Tape

end OpTape
