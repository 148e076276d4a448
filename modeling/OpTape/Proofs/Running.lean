import OpTape.Evaluation
import OpTape.Proofs.Traversal
/-
  An evaluation without a trace is a run of steps on the state: the notes are empty, so they
  write nothing. `observe_eq` reads what an evaluation at `x` shows from outside off such a
  run, which starts behind the zero constant.
-/
namespace OpTape

theorem entry_eq_ok_iff {V α : Type} {table : Array α} {i : Nat} {a : α} :
    (entry table i : Except (Fault V) α) = .ok a ↔ table[i]? = some a := by
  unfold entry
  split <;> simp_all

/-- What is there keeps its place when values are added. -/
theorem entry_append_left {V α : Type} {table more : Array α} {i : Nat} (h : i < table.size) :
    (entry (table ++ more) i : Except (Fault V) α) = entry table i := by
  unfold entry
  rw [Array.getElem?_append_left h]

namespace State

variable {V : Type}

theorem write_empty (s : State V) : s.write "" = s := by
  simp [write]

@[simp] theorem values_apply (s : State V) (e : Effect V) :
    (s.apply e).values = s.values ++ e.appended.toArray := by
  cases e <;> simp [apply, Effect.appended, append_list_eq]

/-- A value that is there stays where it is. -/
theorem getElem?_apply {s : State V} {i : Nat} {v : V} (h : s.values[i]? = some v) (e : Effect V) :
    (s.apply e).values[i]? = some v := by
  rw [values_apply, Array.getElem?_append_left (Array.getElem?_eq_some_iff.mp h).1, h]

variable [Scalar V]

/-- One step of an evaluation that writes no trace. -/
def exec (r : Registry V) (s : State V) (u : Usage V) : Except (Halt V) (State V) :=
  match u.effect r s.values s.vectors with
  | .ok e => .ok (s.apply e)
  | .error fault => .error ⟨fault, s.spoil u⟩

/-- The steps of several usages in order, up to the first failure. -/
def execAll (r : Registry V) (s : State V) : List (Usage V) → Except (Halt V) (State V)
  | [] => .ok s
  | u :: rest => s.exec r u >>= fun s' => s'.execAll r rest

/-- The state behind the zero constant in an evaluation at `x`. -/
def start (x : List V) : State V := { values := x.toArray.push Scalar.zero }

theorem step_eq_exec (r : Registry V) (s : State V) (u : Usage V) :
    s.step r u (fun _ => "") = s.exec r u := by
  unfold step exec
  split <;> simp_all [write_empty]

theorem run_eq_execAll (r : Registry V) (s : State V) (us : List (Usage V)) :
    s.run r (us.map fun u => (u, fun _ => "")) = s.execAll r us := by
  induction us generalizing s with
  | nil => rfl
  | cons u rest ih =>
    simp only [List.map_cons, run, execAll, step_eq_exec, ih]

@[simp] theorem execAll_nil (r : Registry V) (s : State V) : s.execAll r [] = .ok s := rfl

theorem execAll_cons (r : Registry V) (s : State V) (u : Usage V) (rest : List (Usage V)) :
    s.execAll r (u :: rest) = s.exec r u >>= fun s' => s'.execAll r rest := rfl

theorem execAll_append (r : Registry V) (s : State V) (us vs : List (Usage V)) :
    s.execAll r (us ++ vs) = s.execAll r us >>= fun s' => s'.execAll r vs := by
  induction us generalizing s with
  | nil => rfl
  | cons u rest ih =>
    rw [List.cons_append, execAll_cons, execAll_cons, bind_assoc]
    simp only [ih]

theorem execAll_singleton (r : Registry V) (s : State V) (u : Usage V) :
    s.execAll r [u] = s.exec r u := by
  rw [execAll_cons]
  cases s.exec r u <;> rfl

theorem exec_of_effect {r : Registry V} {s : State V} {u : Usage V} {e : Effect V}
    (h : u.effect r s.values s.vectors = .ok e) : s.exec r u = .ok (s.apply e) := by
  simp [exec, h]

theorem exec_of_error {r : Registry V} {s : State V} {u : Usage V} {f : Fault V}
    (h : u.effect r s.values s.vectors = .error f) : s.exec r u = .error ⟨f, s.spoil u⟩ := by
  simp [exec, h]

theorem exec_eq_ok_iff {r : Registry V} {s s' : State V} {u : Usage V} :
    s.exec r u = .ok s' ↔ ∃ e, u.effect r s.values s.vectors = .ok e ∧ s.apply e = s' := by
  unfold exec
  cases u.effect r s.values s.vectors <;> simp

@[simp] theorem out_spoil (s : State V) (u : Usage V) : (s.spoil u).out = s.out := by
  cases u <;> rfl

end State

namespace Usage

variable {V : Type} [Scalar V]

/-- The usage only computes its results from its operands. -/
def isPure : Usage V → Bool
  | compare _ _ _ | vector _ | load _ _ | store _ _ _ | print _ _ _ _ => false
  | _ => true

theorem effect_of_isPure {u : Usage V} (hu : u.isPure) (r : Registry V) (values : Array V)
    (vectors : Array (Array V)) :
    u.effect r values vectors = .results <$> u.compute r (entry values) := by
  cases u with
  | compare | vector | load | store | print => simp [isPure] at hu
  | _ => rfl

end Usage

namespace Effect

variable {V : Type}

/-- The effect is one that a usage can have, by its kind and its number of results. -/
def IsOf (u : Usage V) : Effect V → Prop
  | results values => u.startsVector = false ∧ values.length = u.resultCount
  | compared _ => u.kind = .compare
  | started _ => u.kind = .vector
  | stored which _ => u.kind = .store ∧ u.vector? = some which
  | printed _ => u.kind = .print

def isStart : Effect V → Bool
  | started _ => true
  | _ => false

/-- An effect adds the results that its usage has, and starts a vector if its usage does. -/
theorem IsOf.counts {u : Usage V} {e : Effect V} (h : e.IsOf u) :
    u.resultCount = e.appended.length ∧ u.startsVector = e.isStart := by
  cases e with
  | results values => exact ⟨h.2.symm, h.1⟩
  | compared | started | printed =>
    cases u <;> simp_all [IsOf, Usage.kind, Usage.resultCount, Usage.startsVector, appended, isStart]
  | stored =>
    obtain ⟨hkind, -⟩ := h
    cases u <;> simp_all [Usage.kind, Usage.resultCount, Usage.startsVector, appended, isStart]

end Effect

namespace Usage

variable {V : Type} [Scalar V] {r : Registry V} {values : Array V} {vectors : Array (Array V)}
  {e : Effect V}

theorem length_of_compute {u : Usage V} (hu : u.isPure) {value : Nat → Except (Fault V) V}
    {vals : List V} (h : u.compute r value = .ok vals) : vals.length = u.resultCount := by
  cases u with
  | compare | vector | load | store | print => simp [isPure] at hu
  | foreign =>
    simp only [compute, bind_eq_ok_iff] at h
    obtain ⟨_, -, ys, -, h⟩ := h
    obtain rfl : ys.toList = vals := by simpa [pure, Except.pure] using h
    simp [resultCount]
  | _ =>
    simp only [compute, bind_eq_ok_iff, pure, Except.pure, Except.ok.injEq] at h
    grind [resultCount]

theorem effect_compare {cmp : Comparison} {x y : Nat}
    (h : (compare cmp x y).effect r values vectors = .ok e) :
    ∃ a b, values[x]? = some a ∧ values[y]? = some b ∧ e = .compared (cmp.holds a b) := by
  simp only [effect, bind_eq_ok_iff, entry_eq_ok_iff, pure, Except.pure, Except.ok.injEq] at h
  obtain ⟨a, ha, b, hb, rfl⟩ := h
  exact ⟨a, b, ha, hb, rfl⟩

theorem effect_vector {initial : List Nat}
    (h : (vector initial).effect r values vectors = .ok e) :
    ∃ cells, e = .started cells := by
  simp only [effect, bind_eq_ok_iff, pure, Except.pure, Except.ok.injEq] at h
  obtain ⟨cells, -, rfl⟩ := h
  exact ⟨cells.toArray, rfl⟩

theorem effect_load {w x : Nat} (h : (load w x).effect r values vectors = .ok e) :
    ∃ v, e = .results [v] := by
  simp only [effect, bind_eq_ok_iff] at h
  obtain ⟨cells, -, i, -, k, -, h⟩ := h
  cases k with
  | none => exact ⟨Scalar.nan, (Except.ok.inj h).symm⟩
  | some k => exact ⟨cells[k], (Except.ok.inj h).symm⟩

theorem effect_store {w x y : Nat} (h : (store w x y).effect r values vectors = .ok e) :
    ∃ cells, e = .stored w cells := by
  simp only [effect, bind_eq_ok_iff] at h
  obtain ⟨cells, -, v, -, i, -, k, -, h⟩ := h
  cases k with
  | none => exact ⟨_, (Except.ok.inj h).symm⟩
  | some k => exact ⟨_, (Except.ok.inj h).symm⟩

theorem effect_print {before after : String} {x y : Nat}
    (h : (print before after x y).effect r values vectors = .ok e) :
    ∃ a b, values[y]? = some a ∧ values[x]? = some b ∧
      e = .printed (if Scalar.lt Scalar.zero b then before ++ Scalar.text a ++ after else "") := by
  simp only [effect, bind_eq_ok_iff, entry_eq_ok_iff] at h
  obtain ⟨a, ha, b, hb, h⟩ := h
  refine ⟨a, b, ha, hb, ?_⟩
  split <;> simp_all [pure, Except.pure]

/-- A call has the results of the function on its inputs. -/
theorem effect_foreign {family : Family} {id callId n : Nat} {inputs : List Nat} {x : List V}
    (r : Registry V) (vectors : Array (Array V))
    (hx : inputs.mapM (entry values) = (.ok x : Except (Fault V) (List V))) :
    (foreign family id callId n inputs).effect r values vectors
      = (fun res => .results res.toList) <$> r.apply family id callId x n := by
  rw [effect_of_isPure rfl, compute, hx, ← bind_pure_comp, ← bind_pure_comp]
  exact bind_assoc (r.apply family id callId x n) _ _

theorem effect_foreign_eq_ok {family : Family} {id callId n : Nat} {inputs : List Nat}
    (h : (foreign family id callId n inputs).effect r values vectors = .ok e) :
    ∃ x res, inputs.mapM (entry values) = (.ok x : Except (Fault V) (List V)) ∧
      r.apply family id callId x n = .ok res ∧ e = .results res.toList := by
  rw [effect_of_isPure rfl, map_eq_ok_iff] at h
  obtain ⟨vals, hvals, rfl⟩ := h
  obtain ⟨x, hx, hvals⟩ := bind_eq_ok_iff.mp hvals
  obtain ⟨res, hres, hvals⟩ := bind_eq_ok_iff.mp hvals
  obtain rfl := Except.ok.inj hvals
  exact ⟨x, res, hx, hres, rfl⟩

theorem isOf_of_effect {u : Usage V} (h : u.effect r values vectors = .ok e) : e.IsOf u := by
  cases u with
  | compare cmp x y =>
    obtain ⟨_, _, -, -, rfl⟩ := effect_compare h
    rfl
  | vector initial =>
    obtain ⟨_, rfl⟩ := effect_vector h
    rfl
  | load w x =>
    obtain ⟨_, rfl⟩ := effect_load h
    exact ⟨rfl, rfl⟩
  | store w x y =>
    obtain ⟨_, rfl⟩ := effect_store h
    exact ⟨rfl, rfl⟩
  | print before after x y =>
    obtain ⟨_, _, -, -, rfl⟩ := effect_print h
    rfl
  | _ =>
    rw [effect_of_isPure rfl, map_eq_ok_iff] at h
    obtain ⟨vals, hvals, rfl⟩ := h
    exact ⟨rfl, length_of_compute rfl hvals⟩

end Usage

/-- What an evaluation shows from outside. -/
structure Observation (V : Type) where
  outcome : Except (Fault V) (Answer V)
  out : String

namespace Tape

variable {V : Type} [Scalar V]

/-- What an evaluation without a trace shows at the independents `x`. -/
def observe (t : Tape V) (r : Registry V) (x : List V) : Observation V :=
  if x.length = t.indCount then
    let e := t.evaluate r false (t.initial x)
    ⟨e.outcome, e.out⟩
  else ⟨.error (.valueLength t.indCount x.length), ""⟩

/-- A tape evaluates at inputs of the right number only. -/
theorem length_of_observe {t : Tape V} {r : Registry V} {x : List V} {a : Answer V}
    (h : (t.observe r x).outcome = .ok a) : x.length = t.indCount := by
  unfold observe at h
  split at h
  · assumption
  · cases h

/-- What a run of the recorded usages shows. -/
def conclude (t : Tape V) : Except (Halt V) (State V) → Observation V
  | .error halt => ⟨.error halt.fault, halt.state.out⟩
  | .ok s =>
    { outcome := do
        return { dependents := ← t.dependents.mapM (entry s.values)
                 compareFalse := s.compareFalse }
      out := s.out }

theorem size_initial (t : Tape V) {x : List V} (hx : x.length = t.indCount) :
    (t.initial x).size = t.valueCount := by
  have hv := t.valueCount_eq
  simp only [initial, List.size_toArray, List.length_append, List.length_replicate]
  omega

theorem extract_initial (t : Tape V) {x : List V} (hx : x.length = t.indCount) :
    (t.initial x).extract 0 t.indCount = x.toArray := by
  simp [initial, ← hx]

/-- An evaluation without a trace is a run of what was recorded, behind the zero constant. -/
theorem run_noted (t : Tape V) (r : Registry V) (independents : Array V) :
    State.run r { values := independents, out := "" } (t.noted false)
      = State.execAll r { values := independents.push Scalar.zero } t.body.toList := by
  have hzero : State.exec r { values := independents } (.constant Scalar.zero)
      = .ok { values := independents.push Scalar.zero } := rfl
  rw [noted, if_neg (by simp), State.run_eq_execAll, usages, State.execAll_cons, hzero]
  rfl

theorem observe_eq (t : Tape V) (r : Registry V) {x : List V} (hx : x.length = t.indCount) :
    t.observe r x = t.conclude ((State.start x).execAll r t.body.toList) := by
  simp only [observe, hx, if_true, evaluate, size_initial t hx, extract_initial t hx]
  simp only [Bool.false_eq_true, if_false, run_noted]
  show _ = t.conclude (State.execAll r { values := x.toArray.push Scalar.zero } t.body.toList)
  cases State.execAll r { values := x.toArray.push Scalar.zero } t.body.toList with
  | error halt => rfl
  | ok s =>
    simp only [conclude]
    cases t.dependents.mapM (entry s.values) with
    | error f => rfl
    | ok ds => simp [pure, Except.pure, bind, Except.bind]

end Tape

end OpTape
