import OpTape.Liveness
import OpTape.Proofs.Agreement
import OpTape.Proofs.Doubles
import OpTape.Proofs.Following
/-
  Dropping dead code keeps what is observed. The view of the simulation is the live set: at each
  usage the sweep knows what is needed behind it (`Live.view`), and the new state shows just
  that. `Visited` says what the sweep can decide on a usage. What it drops has an idle effect;
  what it keeps reads live values only. A registered function whose unmarked inputs were bound
  to zero has other results, but the same ones where they are needed, unless it refuses these
  inputs (`Tape.RefusesUnread`). An honest function does not.
-/
namespace OpTape

variable {V : Type}

namespace Live

/-- What is needed of an evaluation behind a usage. -/
def view (live : Live) (options : Options) : View where
  value i := live.values.contains i = true
  vector w := live.vectors.contains w = true
  compares := options.keepCompare
  prints := options.keepPrint

/-- The usages that may go when `live` is needed behind them. -/
def MayDrop (live : Live) (options : Options) (zeroIndex : Nat) : Usage V → Prop
  | .compare cmp _ _ => options.keepCompare = false ∨ cmp = .always
  | .print _ _ flag _ => options.keepPrint = false ∨ flag = zeroIndex
  | .store which _ _ => live.vectors.contains which = false
  | _ => True

/-- Nothing that the usage at `p` makes available is needed behind it. -/
structure Spares (live : Live) (p : Place) (u : Usage V) : Prop where
  values : ∀ k < u.resultCount, live.values.contains (p.first + k) = false
  vectors : u.startsVector = true → live.vectors.contains p.vector = false

/-- `before` is needed in front of a usage that stays when `behind` is needed behind it. -/
structure Keeps (options : Options) (u : Usage V) (before behind : Live) : Prop where
  reads : ∀ i ∈ u.reads, before.values.contains i
  vector : ∀ w ∈ u.vector?, before.vectors.contains w
  values : ∀ i, behind.values.contains i → before.values.contains i
  vectors : ∀ w, behind.vectors.contains w → before.vectors.contains w
  compares : u.kind = .compare → options.keepCompare = true
  prints : u.kind = .print → options.keepPrint = true

/-- The inputs that a registered function reads. -/
def marked (inputs : List Nat) (reads : List Bool) : List Nat :=
  (inputs.zip reads).filterMap fun (i, isRead) => if isRead then some i else none

/-- What the sweep can decide on a usage. -/
inductive Visited (r : Registry V) (options : Options) (zeroIndex : Nat) (p : Place)
    (live : Live) : Usage V → Live → Action V → Prop
  | drop {u : Usage V} (hdrop : live.MayDrop options zeroIndex u) (hspares : live.Spares p u) :
      Visited r options zeroIndex p live u live .drop
  | copy {u : Usage V} {before : Live} (hkeeps : Keeps options u before live) :
      Visited r options zeroIndex p live u before .copy
  | rebind {family : Family} {id callId n : Nat} {inputs : List Nat} {reads : List Bool}
      (hneeded : (live.pattern p.first n).any (·))
      (hreads : inputsRead r options family id callId (live.pattern p.first n) inputs.length
        = .ok reads) :
      Visited r options zeroIndex p live (.foreign family id callId n inputs)
        { live with values := live.values.insertAll (marked inputs reads) } (.rebind reads)

variable {r : Registry V} {options : Options} {zeroIndex : Nat} {p : Place}

/-- A usage that is kept brings its reads in. -/
theorem keeps_insertAll {live : Live} {u : Usage V} {vectors : IndexSet}
    (hvectors : ∀ w, live.vectors.contains w → vectors.contains w)
    (hvector : ∀ w ∈ u.vector?, vectors.contains w)
    (hcompare : u.kind = .compare → options.keepCompare = true)
    (hprint : u.kind = .print → options.keepPrint = true) :
    Keeps options u { values := live.values.insertAll u.reads, vectors } live where
  reads i hi := by simp [hi]
  vector := hvector
  values i hi := by
    rw [IndexSet.contains_insertAll, hi, Bool.or_true]
  vectors := hvectors
  compares := hcompare
  prints := hprint

theorem visited_of_keepIf {live before : Live} {u : Usage V} {needed : Bool} {action : Action V}
    (h : live.keepIf u needed = (before, action))
    (hvector : needed → ∀ w ∈ u.vector?, live.vectors.contains w)
    (hcompare : needed → u.kind = .compare → options.keepCompare = true)
    (hprint : needed → u.kind = .print → options.keepPrint = true)
    (hdrop : needed = false → live.MayDrop options zeroIndex u)
    (hspares : needed = false → live.Spares p u) :
    Visited r options zeroIndex p live u before action := by
  cases needed with
  | true =>
    obtain ⟨rfl, rfl⟩ := Prod.mk.inj h
    exact .copy (keeps_insertAll (fun _ hw => hw) (hvector rfl) (hcompare rfl) (hprint rfl))
  | false =>
    obtain ⟨rfl, rfl⟩ := Prod.mk.inj h
    exact .drop (hdrop rfl) (hspares rfl)

/-- A usage with neither results nor a vector makes nothing available. -/
theorem spares_of_counts {live : Live} {u : Usage V} (hcount : u.resultCount = 0)
    (hstarts : u.startsVector = false) : live.Spares p u where
  values k hk := absurd (hcount ▸ hk) (Nat.not_lt_zero k)
  vectors h := absurd (hstarts.symm.trans h) Bool.false_ne_true

/-- The only result of a usage is not needed. -/
theorem spares_of_one {live : Live} {u : Usage V} (hcount : u.resultCount = 1)
    (hstarts : u.startsVector = false) (h : live.values.contains p.first = false) :
    live.Spares p u where
  values k hk := by
    obtain rfl : k = 0 := by omega
    exact h
  vectors h := absurd (hstarts.symm.trans h) Bool.false_ne_true

theorem length_pattern (live : Live) (first n : Nat) : (live.pattern first n).length = n := by
  simp [pattern]

theorem pattern_eq_true {live : Live} {first n k : Nat} (hk : k < n)
    (h : live.values.contains (first + k) = true) :
    (live.pattern first n)[k]? = some true := by
  simp [pattern, hk, h]

theorem visited_of_visit {live before : Live} {u : Usage V} {action : Action V}
    (h : live.visit r options zeroIndex p u = .ok (before, action)) :
    Visited r options zeroIndex p live u before action := by
  -- usages that nothing but their results is needed for
  have hplain {needed : Bool} (h : live.keepIf u needed = (before, action))
      (hu : u.vector? = none) (hcompare : u.kind ≠ .compare) (hprint : u.kind ≠ .print)
      (hdrop : live.MayDrop options zeroIndex u) (hspares : needed = false → live.Spares p u) :
      Visited r options zeroIndex p live u before action :=
    visited_of_keepIf h (by simp [hu]) (fun _ hkind => absurd hkind hcompare)
      (fun _ hkind => absurd hkind hprint) (fun _ => hdrop) hspares
  cases u with
  | compare cmp x y =>
    refine visited_of_keepIf (Except.ok.inj h) (by simp [Usage.vector?])
      (fun hneeded _ => (Bool.and_eq_true_iff.mp hneeded).1)
      (fun _ hkind => absurd hkind (by simp [Usage.kind])) ?_ fun _ => spares_of_counts rfl rfl
    intro hneeded
    rcases Bool.and_eq_false_iff.mp hneeded with hoff | hsame
    · exact Or.inl hoff
    · exact Or.inr (by simpa using hsame)
  | print before' after flag x =>
    refine visited_of_keepIf (Except.ok.inj h) (by simp [Usage.vector?])
      (fun _ hkind => absurd hkind (by simp [Usage.kind]))
      (fun hneeded _ => (Bool.and_eq_true_iff.mp hneeded).1) ?_ fun _ => spares_of_counts rfl rfl
    intro hneeded
    rcases Bool.and_eq_false_iff.mp hneeded with hoff | hsame
    · exact Or.inl hoff
    · exact Or.inr (by simpa using hsame)
  | store w x y =>
    refine visited_of_keepIf (Except.ok.inj h) (fun hneeded w' hw' => ?_)
      (fun _ hkind => absurd hkind (by simp [Usage.kind]))
      (fun _ hkind => absurd hkind (by simp [Usage.kind])) (fun hneeded => hneeded)
      fun _ => spares_of_counts rfl rfl
    obtain rfl : w = w' := Option.some.inj hw'
    exact hneeded
  | load w x =>
    simp only [visit] at h
    split at h
    · obtain ⟨rfl, rfl⟩ := Prod.mk.inj (Except.ok.inj h)
      have hkeeps : Keeps options (Usage.load w x : Usage V)
          { values := live.values.insertAll (Usage.load w x : Usage V).reads
            vectors := live.vectors.insert w } live := by
        refine keeps_insertAll (fun w' hw' => ?_) (fun w' hw' => ?_)
          (fun hkind => absurd hkind (by simp [Usage.kind]))
          fun hkind => absurd hkind (by simp [Usage.kind])
        · rw [IndexSet.contains_insert, hw', Bool.or_true]
        · obtain rfl : w = w' := Option.some.inj hw'
          simp
      exact .copy hkeeps
    · rename_i hneeded
      obtain ⟨rfl, rfl⟩ := Prod.mk.inj (Except.ok.inj h)
      exact .drop trivial (spares_of_one rfl rfl (by simpa using hneeded))
  | vector initial =>
    refine hplain (Except.ok.inj h) rfl (fun hkind => by cases hkind) (fun hkind => by cases hkind)
      trivial fun hneeded => ⟨fun k hk => absurd hk (Nat.not_lt_zero k), fun _ => hneeded⟩
  | foreign family id callId n inputs =>
    simp only [visit] at h
    split at h
    · rename_i hneeded
      obtain ⟨reads, hreads, h⟩ := bind_eq_ok_iff.mp h
      obtain ⟨rfl, rfl⟩ := Prod.mk.inj (Except.ok.inj h)
      exact .rebind hneeded hreads
    · rename_i hneeded
      obtain ⟨rfl, rfl⟩ := Prod.mk.inj (Except.ok.inj h)
      refine .drop trivial ⟨fun k hk => ?_, fun hstarts => by cases hstarts⟩
      cases hneed : live.values.contains (p.first + k) with
      | false => rfl
      | true =>
        exact absurd (List.any_eq_true.mpr
          ⟨true, List.mem_of_getElem? (pattern_eq_true hk hneed), rfl⟩) hneeded
  | _ =>
    exact hplain (Except.ok.inj h) rfl (fun hkind => by cases hkind) (fun hkind => by cases hkind)
      trivial fun hneeded => spares_of_one rfl rfl hneeded

theorem sweep_cons_eq_ok {behind before : Live} {u : Usage V} {rest : List (Usage V)}
    {action : Action V} {actions : List (Action V)}
    (h : sweep r options zeroIndex behind p (u :: rest) = .ok (before, action :: actions)) :
    ∃ live, sweep r options zeroIndex behind (p.past u) rest = .ok (live, actions) ∧
      live.visit r options zeroIndex p u = .ok (before, action) := by
  simp only [sweep, bind_eq_ok_iff] at h
  obtain ⟨⟨live, actions'⟩, hrest, ⟨live', action'⟩, hvisit, h⟩ := h
  obtain ⟨rfl, hactions⟩ := Prod.mk.inj (Except.ok.inj h)
  obtain ⟨rfl, rfl⟩ := List.cons.inj hactions
  exact ⟨live, hrest, hvisit⟩

theorem length_of_sweep {behind before : Live} {us : List (Usage V)} {actions : List (Action V)}
    (h : sweep r options zeroIndex behind p us = .ok (before, actions)) :
    actions.length = us.length := by
  induction us generalizing p before actions with
  | nil =>
    obtain ⟨-, rfl⟩ := Prod.mk.inj (Except.ok.inj h)
    rfl
  | cons u rest ih =>
    simp only [sweep, bind_eq_ok_iff] at h
    obtain ⟨⟨live, actions'⟩, hrest, ⟨live', action'⟩, -, h⟩ := h
    obtain ⟨-, rfl⟩ := Prod.mk.inj (Except.ok.inj h)
    rw [List.length_cons, List.length_cons, ih hrest]

theorem inputsRead_eq_ok {family : Family} {id callId inputCount : Nat}
    {needed reads : List Bool}
    (h : inputsRead r options family id callId needed inputCount = .ok reads) :
    ∃ answer : Vector Bool inputCount,
      r.dependence family id callId needed inputCount = .ok answer ∧ answer.toList = reads := by
  obtain ⟨answer, hanswer, h⟩ := bind_eq_ok_iff.mp h
  refine ⟨answer, hanswer, ?_⟩
  split at h
  · obtain ⟨found, -, h⟩ := bind_eq_ok_iff.mp h
    cases found with
    | none => exact Except.ok.inj h
    | some result => cases h
  · exact Except.ok.inj h

end Live

/-- Whenever the sweep acts on a dependence answer, the needed results depend on no input that
the answer leaves out. -/
def Registry.Supports (r : Registry V) (options : Options) : Prop :=
  ∀ family id callId n inputCount needed reads, needed.length = n → needed.any (·) →
    Live.inputsRead r options family id callId needed inputCount = .ok reads →
    ∀ x y : List V, AgreeOn reads x y →
      SameOn needed (r.apply family id callId x n) (r.apply family id callId y n)

theorem Registry.Honest.supports {r : Registry V} (hr : r.Honest) (options : Options) :
    r.Supports options := by
  intro family id callId n inputCount needed reads hlength hneeded hreads x y hagree
  obtain ⟨answer, hanswer, rfl⟩ := Live.inputsRead_eq_ok hreads
  subst hlength
  exact hr.sameOn hneeded hanswer hagree

/-- Whenever the sweep acts on a dependence answer, inputs that the answer leaves out do not change
the needed results, where there are results. -/
def Registry.SupportsValues (r : Registry V) (options : Options) : Prop :=
  ∀ family id callId n inputCount needed reads, needed.length = n →
    Live.inputsRead r options family id callId needed inputCount = .ok reads →
    ∀ x y : List V, AgreeOn reads x y →
      SameResults needed (r.apply family id callId x n) (r.apply family id callId y n)

theorem Registry.KeepsValues.supportsValues {r : Registry V} (hr : r.KeepsValues)
    (options : Options) : r.SupportsValues options := by
  intro family id callId n inputCount needed reads hlength hreads x y hagree
  obtain ⟨answer, hanswer, rfl⟩ := Live.inputsRead_eq_ok hreads
  exact hr.sameResults hlength hanswer hagree

/-- Without a needed result there is nothing to support. -/
theorem Registry.Supports.supportsValues {r : Registry V} {options : Options}
    (hr : r.Supports options) : r.SupportsValues options := by
  intro family id callId n inputCount needed reads hlength hreads x y hagree
  by_cases hneeded : needed.any (·) = true
  · exact (hr _ _ _ _ _ _ _ hlength hneeded hreads x y hagree).sameResults
  · intro a b _ _ j hj
    exact absurd (List.any_eq_true.mpr ⟨true, List.mem_of_getElem? hj, rfl⟩) hneeded

/-- Where an evaluation stands on the tape. -/
def State.place (s : State V) : Place := { first := s.values.size, vector := s.vectors.size }

theorem State.place_apply (s : State V) {u : Usage V} {e : Effect V} (he : e.IsOf u) :
    (s.apply e).place = s.place.past u := by
  have hvalues : (s.apply e).values.size = s.values.size + u.resultCount := by
    rw [State.values_apply, Array.size_append, he.counts.1]
    rfl
  simp only [State.place, Place.past, hvalues, Rebuild.size_vectors_apply s he]

namespace Live

theorem Keeps.covers {options : Options} {u : Usage V} {before behind : Live}
    (h : Keeps options u before behind) (s : State V) :
    (before.view options).Covers s (behind.view options) where
  value _ hi := h.values _ hi
  vector _ hw := h.vectors _ hw
  compares := rfl
  prints := rfl

variable [Scalar V] {r : Registry V} {options : Options} {zeroIndex : Nat}

/-- The inputs of a registered function on the new tape are those on the old one, with zero in the
place of each that is not marked. -/
theorem mapM_inputs {b : Rebuild V} {s s' : State V} {inputs new : List Nat}
    {reads : List Bool} {x : List V} (hzero : s'.values[b.tape.zeroIndex]? = some Scalar.zero)
    (hlength : reads.length = inputs.length)
    (hvalue : ∀ i ∈ marked inputs reads, ∀ j, b.value? i = some j → s'.values[j]? = s.values[i]?)
    (hnew : (reads.zip inputs).mapM (fun (flag, i) => b.input? flag i) = some new)
    (hx : inputs.mapM (entry s.values) = (.ok x : Except (Fault V) (List V))) :
    new.mapM (entry s'.values)
      = (.ok (substituted Scalar.zero reads x) : Except (Fault V) (List V)) := by
  induction inputs generalizing reads new x with
  | nil =>
    obtain rfl := List.length_eq_zero_iff.mp hlength
    obtain rfl := Option.some.inj hnew
    obtain rfl := Except.ok.inj hx
    rfl
  | cons i inputs ih =>
    cases reads with
    | nil => simp at hlength
    | cons read reads =>
      simp only [List.zip_cons_cons, List.mapM_cons, Option.bind_eq_bind, Option.bind_eq_some_iff,
        Option.pure_def, Option.some.injEq] at hnew
      obtain ⟨j, hj, new, hrest, rfl⟩ := hnew
      simp only [List.mapM_cons, bind_eq_ok_iff, entry_eq_ok_iff] at hx
      obtain ⟨a, ha, x, hx, heq⟩ := hx
      obtain rfl := Except.ok.inj heq
      have hvalue' : ∀ k ∈ marked inputs reads, ∀ j, b.value? k = some j →
          s'.values[j]? = s.values[k]? := by
        intro k hk
        refine hvalue k ?_
        cases read
        · exact hk
        · exact List.mem_cons_of_mem i hk
      have hy := ih (by simpa using hlength) hvalue' hrest hx
      have hfirst : s'.values[j]? = some (if read then a else Scalar.zero) := by
        cases read with
        | true => exact (hvalue i List.mem_cons_self j hj).trans ha
        | false =>
          obtain rfl : b.tape.zeroIndex = j := Option.some.inj hj
          exact hzero
      simp only [List.mapM_cons, bind_eq_ok_iff, entry_eq_ok_iff]
      exact ⟨_, hfirst, _, hy, rfl⟩

/-- What may be dropped is not noticed. -/
theorem MayDrop.idle {live : Live} {u : Usage V} (h : live.MayDrop options zeroIndex u)
    (hzero : Scalar.lt (Scalar.zero : V) Scalar.zero = false) {values : Array V}
    {vectors : Array (Array V)} (hvalues : values[zeroIndex]? = some Scalar.zero) {e : Effect V}
    (he : u.effect r values vectors = .ok e) : e.Idle (live.view options) := by
  cases u with
  | compare cmp x y =>
    obtain ⟨a, c, -, -, rfl⟩ := Usage.effect_compare he
    rcases h with hoff | rfl
    · exact Or.inr hoff
    · exact Or.inl rfl
  | print before after flag x =>
    obtain ⟨a, c, -, hflag, rfl⟩ := Usage.effect_print he
    rcases h with hoff | rfl
    · exact Or.inr hoff
    · obtain rfl : Scalar.zero = c := Option.some.inj (hvalues.symm.trans hflag)
      left
      rw [hzero]
      rfl
  | store w x y =>
    obtain ⟨cells, rfl⟩ := Usage.effect_store he
    show ¬ live.vectors.contains w = true
    rw [show live.vectors.contains w = false from h]
    exact Bool.false_ne_true
  | vector initial =>
    obtain ⟨cells, rfl⟩ := Usage.effect_vector he
    trivial
  | load w x =>
    obtain ⟨v, rfl⟩ := Usage.effect_load he
    trivial
  | _ =>
    rw [Usage.effect_of_isPure rfl, map_eq_ok_iff] at he
    obtain ⟨vals, -, rfl⟩ := he
    trivial

/-- A registered function that accepts zero for its unmarked inputs gives the needed results. -/
theorem sim_rebind (hr : r.SupportsValues options) {b : Rebuild V} (hb : b.Bounded)
    {s s' : State V} {live : Live} {family : Family} {id callId n : Nat} {inputs new : List Nat}
    {reads : List Bool} {x : List V} {res res' : Vector V n}
    (h : b.Sim (view { live with values := live.values.insertAll (marked inputs reads) } options)
      s s')
    (hreads : inputsRead r options family id callId (live.pattern s.values.size n) inputs.length
      = .ok reads)
    (hlength : reads.length = x.length) (hres : r.apply family id callId x n = .ok res)
    (hres' : r.apply family id callId (substituted Scalar.zero reads x) n = .ok res') :
    (b.replaced (.foreign family id callId n inputs) (.foreign family id callId n new)).Sim
      (live.view options) (s.apply (.results res.toList)) (s'.apply (.results res'.toList)) := by
  have hsame := hr _ _ _ n _ _ reads (length_pattern live _ n) hreads _ _
    (agreeOn_substituted Scalar.zero hlength) res res' hres hres'
  refine h.kept hb ?_ (.results ?_ ?_) ⟨rfl, by simp [Usage.resultCount]⟩
    ⟨rfl, by simp [Usage.resultCount]⟩
  · refine ⟨fun {i} _ hi => ?_, fun _ hw => hw, rfl, rfl⟩
    show (live.values.insertAll _).contains i = true
    rw [IndexSet.contains_insertAll, show live.values.contains i = true from hi, Bool.or_true]
  · simp
  · intro k hk
    by_cases hlt : k < n
    · have hflag := hsame k (pattern_eq_true hlt hk)
      simpa using hflag.symm
    · simp [hlt]

/-- A call in state `s`, with `live` needed behind it, is refused when zero stands for the inputs
that the needed results do not read. -/
def RefusesUnread (live : Live) (r : Registry V) (options : Options) (s : State V) (u : Usage V)
    (fault : Fault V) : Prop :=
  ∃ family id callId n inputs reads, u = .foreign family id callId n inputs ∧
    (live.pattern s.values.size n).any (·) ∧
    inputsRead r options family id callId (live.pattern s.values.size n) inputs.length
      = .ok reads ∧
    Refuses r s Scalar.zero reads u fault

/-- A call with zero for its unmarked inputs goes on, or it is refused. -/
theorem rebind_cases (hr : r.SupportsValues options) {b : Rebuild V} (hb : b.Bounded)
    {s s' : State V} {live : Live} {family : Family} {id callId n : Nat} {inputs : List Nat}
    {reads : List Bool}
    (h : b.Sim (view { live with values := live.values.insertAll (marked inputs reads) } options)
      s s')
    (hzero : s'.values[b.tape.zeroIndex]? = some Scalar.zero)
    (hneeded : (live.pattern s.values.size n).any (·))
    (hreads : inputsRead r options family id callId (live.pattern s.values.size n) inputs.length
      = .ok reads) {new : Usage V}
    (hnew : b.carryNeeded? reads (.foreign family id callId n inputs) = some new) {e : Effect V}
    (he : (Usage.foreign family id callId n inputs).effect r s.values s.vectors = .ok e) :
    (∃ e', new.effect r s'.values s'.vectors = .ok e' ∧
      (b.replaced (.foreign family id callId n inputs) new).Sim (live.view options)
        (s.apply e) (s'.apply e')) ∨
    ∃ fault, new.effect r s'.values s'.vectors = .error fault ∧
      live.RefusesUnread r options s (.foreign family id callId n inputs) fault := by
  obtain ⟨hlength, new, hinputs, rfl⟩ := Rebuild.carryNeeded?_foreign_eq_some_iff.mp hnew
  obtain ⟨x, res, hx, hres, rfl⟩ := Usage.effect_foreign_eq_ok he
  have hy := mapM_inputs hzero hlength
    (fun i hi j hij => h.value (by simp [view, hi]) hij) hinputs hx
  have hlength' : reads.length = x.length := hlength.trans (length_of_mapM_ok hx).symm
  rw [Usage.effect_foreign r s'.vectors hy]
  cases hres' : r.apply family id callId (substituted Scalar.zero reads x) n with
  | ok res' => exact Or.inl ⟨_, rfl, sim_rebind hr hb h hreads hlength' hres hres'⟩
  | error fault =>
    exact Or.inr ⟨fault, rfl, _, _, _, _, _, reads, rfl, hneeded, hreads,
      refuses_of_apply hx hres hres'⟩

/-- The invariant of the sweep: the actions that are left are those it decided on, and the new
state shows what it found to be needed from here on. -/
def Swept (r : Registry V) (options : Options) (zeroIndex : Nat) (behind : Live)
    (plan : List (Usage V × Action V)) (b : Rebuild V) (s s' : State V) : Prop :=
  s.values[zeroIndex]? = some Scalar.zero ∧ s'.values[b.tape.zeroIndex]? = some Scalar.zero ∧
    ∃ live, sweep r options zeroIndex behind s.place (plan.map Prod.fst)
        = .ok (live, plan.map Prod.snd) ∧ b.Sim (live.view options) s s'

theorem Swept.step (hr : r.SupportsValues options)
    (hzero : Scalar.lt (Scalar.zero : V) Scalar.zero = false) {behind : Live} {u : Usage V}
    {action : Action V} {plan : List (Usage V × Action V)} {b b' : Rebuild V} {s s' : State V}
    (h : Swept r options zeroIndex behind ((u, action) :: plan) b s s') (hb : b.Bounded)
    {x : List V} (hs' : b.runs r x = .ok s') (hstep : Rebuild.Step b u action b') {e : Effect V}
    (he : u.effect r s.values s.vectors = .ok e) :
    (∃ s₁', b'.runs r x = .ok s₁' ∧
      Swept r options zeroIndex behind plan b' (s.apply e) s₁') ∨
    ∃ halt live, b'.runs r x = .error halt ∧
      sweep r options zeroIndex behind (s.place.past u) (plan.map Prod.fst)
        = .ok (live, plan.map Prod.snd) ∧
      live.RefusesUnread r options s u halt.fault := by
  obtain ⟨hvalue, hvalue', before, hsweep, hsim⟩ := h
  obtain ⟨live, hrest, hvisit⟩ := sweep_cons_eq_ok hsweep
  have hof := Usage.isOf_of_effect he
  have hrest' := hrest
  rw [← s.place_apply hof] at hrest'
  have hzeroIndex : b'.tape.zeroIndex = b.tape.zeroIndex := hstep.grows.indCount_eq
  -- it is enough to run the new usage and to show the simulation behind it
  have hdone {e' : Effect V} (hrun : b'.runs r x = .ok (s'.apply e'))
      (hsim' : b'.Sim (live.view options) (s.apply e) (s'.apply e')) :
      ∃ s₁', b'.runs r x = .ok s₁' ∧
        Swept r options zeroIndex behind plan b' (s.apply e) s₁' :=
    ⟨_, hrun, State.getElem?_apply hvalue e, hzeroIndex ▸ State.getElem?_apply hvalue' e',
      live, hrest', hsim'⟩
  cases visited_of_visit hvisit with
  | drop hdrop _ =>
    cases hstep with
    | drop =>
      have hsim' := hsim.dropped (.refl _ s) hof (hdrop.idle hzero hvalue he)
      exact Or.inl ⟨s', by simpa using hs', State.getElem?_apply hvalue e, hzeroIndex ▸ hvalue',
        _, hrest', hsim'⟩
  | copy hkeeps =>
    cases hstep with
    | copy hnew hadmits =>
      obtain ⟨e', he', hsim'⟩ := hsim.copied hb (hkeeps.covers s) hnew hkeeps.reads
        hkeeps.vector hkeeps.compares hkeeps.prints he
      exact Or.inl (hdone (Rebuild.runs_replaced_of_effect hs' _ he') hsim')
  | rebind hneeded hreads =>
    cases hstep with
    | rebind hnew hadmits =>
      rcases rebind_cases hr hb hsim hvalue' hneeded hreads hnew he with
        ⟨e', he', hsim'⟩ | ⟨fault, hfault, hrefuses⟩
      · exact Or.inl (hdone (Rebuild.runs_replaced_of_effect hs' _ he') hsim')
      · exact Or.inr ⟨_, live, Rebuild.runs_replaced_of_error hs' _ hfault, hrest, hrefuses⟩

end Live

namespace Tape

variable {r : Registry V} {t t' : Tape V} {x : List V} {a : Answer V}

theorem dropDead_eq_ok (h : t.dropDead r = .ok t') :
    ∃ live actions, t.liveness r = .ok (live, actions) ∧ t.rebuild actions = .ok t' := by
  obtain ⟨⟨live, actions⟩, hsweep, hrebuild⟩ := bind_eq_ok_iff.mp h
  exact ⟨live, actions, hsweep, hrebuild⟩

variable [Scalar V]

/-- What is needed behind the last usage. -/
def liveBehind (t : Tape V) : Live :=
  { values := ({} : IndexSet).insertAll (t.zeroIndex :: t.dependents) }

/-- An evaluation at `x` comes to a call that is refused when zero stands for the inputs that the
needed results do not read. What is needed there is found by the sweep over the usages behind. -/
def RefusesUnread (t : Tape V) (r : Registry V) (x : List V) (fault : Fault V) : Prop :=
  ∃ before u behind s live actions, t.body.toList = before ++ u :: behind ∧
    (State.start x).execAll r before = .ok s ∧
    Live.sweep r t.options t.zeroIndex t.liveBehind (s.place.past u) behind
      = .ok (live, actions) ∧
    live.RefusesUnread r t.options s u fault

/-- Dropping dead code keeps the dependents and, as far as the options ask for it, the failed
comparisons and the text, unless a function refuses zero for an input that it is said not to
read. -/
theorem observe_of_dropDead_cases (hzero : Scalar.lt (Scalar.zero : V) Scalar.zero = false)
    (hr : r.SupportsValues t.options) (h : t.dropDead r = .ok t')
    (ha : (t.observe r x).outcome = .ok a) :
    (∃ a', (t'.observe r x).outcome = .ok a' ∧ a'.dependents = a.dependents ∧
      a'.compareFalse = (if t.options.keepCompare then a.compareFalse else 0) ∧
      (t'.observe r x).out = if t.options.keepPrint then (t.observe r x).out else "") ∨
    ∃ fault, (t'.observe r x).outcome = .error fault ∧ t.RefusesUnread r x fault := by
  obtain ⟨live, actions, hsweep, hrebuild⟩ := dropDead_eq_ok h
  have hind := (rebuild_inherits hrebuild).1
  have hx := length_of_observe ha
  rw [observe_eq t r hx] at ha ⊢
  rw [observe_eq t' r (hx.trans hind.symm)]
  have hlength := Live.length_of_sweep hsweep
  have hplace : (State.start x).place = t.firstPlace := by
    simp [State.place, State.start, firstPlace, hx]
  -- the needs of the dependents are the view at the end
  have hstart : Live.Swept r t.options t.zeroIndex t.liveBehind (t.body.toList.zip actions)
      (.start t) (.start x) (.start x) := by
    have hvalue : (State.start x).values[t.indCount]? = some Scalar.zero := by
      simp [State.start, ← hx]
    refine ⟨hvalue, hvalue, live, ?_, .start t _ hx⟩
    rw [List.map_fst_zip (by omega), List.map_snd_zip (by omega), hplace]
    exact hsweep
  -- the invariant says as well how far the old evaluation has come
  let I (plan : List (Usage V × Action V)) (b : Rebuild V) (s s' : State V) : Prop :=
    Live.Swept r t.options t.zeroIndex t.liveBehind plan b s s' ∧
      ∃ before, t.body.toList = before ++ plan.map Prod.fst ∧
        (State.start x).execAll r before = .ok s
  have hstep {u : Usage V} {action : Action V} {plan : List (Usage V × Action V)}
      {b b' : Rebuild V} {s s' : State V} (hI : I ((u, action) :: plan) b s s') (hb : b.Bounded)
      (hs' : b.runs r x = .ok s') (hstep : Rebuild.Step b u action b') :
      Follows (Excused (t.RefusesUnread r x)) (I plan b') (s.exec r u) (b'.runs r x) := by
    obtain ⟨hswept, before, hbody, hbefore⟩ := hI
    cases he : u.effect r s.values s.vectors with
    | error fault =>
      rw [State.exec_of_error he]
      exact .off (Or.inl ⟨_, rfl⟩)
    | ok e =>
      have hexec := State.exec_of_effect he
      rcases hswept.step hr hzero hb hs' hstep he with
        ⟨s₁', hnew, hswept'⟩ | ⟨halt, live, hnew, hsweep, hrefuses⟩
      · rw [hexec, hnew]
        refine .on ⟨hswept', before ++ [u], by rw [hbody]; simp, ?_⟩
        rw [State.execAll_append, hbefore]
        exact (State.execAll_singleton r s u).trans hexec
      · rw [hnew]
        exact .off (Or.inr ⟨halt, rfl, before, u, plan.map Prod.fst, s, live, _, hbody, hbefore,
          hsweep, hrefuses⟩)
  have hI : I (t.body.toList.zip actions) (.start t) (.start x) (.start x) :=
    ⟨hstart, [], by rw [List.map_fst_zip (by omega)]; rfl, rfl⟩
  obtain ⟨c, hdeps, hfollows⟩ := rebuild_follows (lasting_excused _) hrebuild I hI hstep
  cases hold : (State.start x).execAll r t.body.toList with
  | error halt =>
    rw [hold] at ha
    cases ha
  | ok s =>
    rw [hold] at hfollows
    rcases hfollows.of_ok with ⟨s', hnew, ⟨-, -, live', hend, hsim⟩, -⟩ | ⟨halt, hnew, hrefuses⟩
    · left
      obtain ⟨rfl, -⟩ := Prod.mk.inj (Except.ok.inj hend)
      simp only [hold, conclude, bind_eq_ok_iff] at ha
      obtain ⟨ds, hds, ha⟩ := ha
      obtain rfl := Except.ok.inj ha
      have hread := hsim.mapM_entry_eq hdeps fun i hi => by simp [Live.view, liveBehind, hi]
      simp only [hnew, conclude, hread, hds]
      exact ⟨_, rfl, rfl, hsim.compareFalse, hsim.out⟩
    · right
      rw [hnew]
      exact ⟨halt.fault, rfl, hrefuses⟩

/-- Where answers are supported, no call refuses zero for an input that it is said not to read. -/
theorem not_refusesUnread (hr : r.Supports t.options) {fault : Fault V} :
    ¬ t.RefusesUnread r x fault := by
  rintro ⟨-, -, -, s, live, -, -, -, -, family, id, callId, n, inputs, reads, rfl, hneeded, hreads,
    hrefuses⟩
  obtain ⟨v, hv, hnot⟩ := hrefuses.not_sameOn
  obtain ⟨answer, -, rfl⟩ := Live.inputsRead_eq_ok hreads
  have hlength : answer.toList.length = v.length := by
    rw [length_of_mapM_ok hv, Vector.length_toList]
  exact hnot _ (hr _ _ _ n _ _ _ (Live.length_pattern live _ n) hneeded hreads _ _
    (agreeOn_substituted Scalar.zero hlength))

/-- Where the sweep acts on supported answers only, dropping dead code keeps the dependents and,
as far as the options ask for it, the failed comparisons and the text. -/
theorem observe_of_dropDead (hzero : Scalar.lt (Scalar.zero : V) Scalar.zero = false)
    (hr : r.Supports t.options) (h : t.dropDead r = .ok t')
    (ha : (t.observe r x).outcome = .ok a) :
    ∃ a', (t'.observe r x).outcome = .ok a' ∧ a'.dependents = a.dependents ∧
      a'.compareFalse = (if t.options.keepCompare then a.compareFalse else 0) ∧
      (t'.observe r x).out = if t.options.keepPrint then (t.observe r x).out else "" := by
  rcases observe_of_dropDead_cases hzero hr.supportsValues h ha with hkept | ⟨fault, -, hrefuses⟩
  · exact hkept
  · exact absurd hrefuses (not_refusesUnread hr)

/-- Where `t` evaluates successfully at `x`, so does `t'`, with the same dependents. The failed
comparisons and the text are the same as far as the options of `t` keep them, and there are none
if they do not. -/
def KeptBy (t t' : Tape V) (r : Registry V) (x : List V) : Prop :=
  ∀ a, (t.observe r x).outcome = .ok a →
    ∃ a', (t'.observe r x).outcome = .ok a' ∧ a'.dependents = a.dependents ∧
      a'.compareFalse = (if t.options.keepCompare then a.compareFalse else 0) ∧
      (t'.observe r x).out = if t.options.keepPrint then (t.observe r x).out else ""

theorem keptBy_of_dropDead (hzero : Scalar.lt (Scalar.zero : V) Scalar.zero = false)
    (hr : r.Supports t.options) (h : t.dropDead r = .ok t') (x : List V) : t.KeptBy t' r x :=
  fun _ ha => observe_of_dropDead hzero hr h ha

/-- With honest functions, dropping dead code keeps what is observed. Wherever the tape evaluates
successfully, so does the new one, with the same dependents. The failed comparisons and the text
are the same if the options keep them, and there are none if they do not. That zero is not
positive is asked of the arithmetic, because a print with the flag zero is dropped as well. -/
theorem dropDead_preserves (hzero : Scalar.lt (Scalar.zero : V) Scalar.zero = false)
    (hr : r.Honest) (h : t.dropDead r = .ok t') (ha : (t.observe r x).outcome = .ok a) :
    ∃ a', (t'.observe r x).outcome = .ok a' ∧ a'.dependents = a.dependents ∧
      a'.compareFalse = (if t.options.keepCompare then a.compareFalse else 0) ∧
      (t'.observe r x).out = if t.options.keepPrint then (t.observe r x).out else "" :=
  observe_of_dropDead hzero (hr.supports t.options) h ha

/-- The call with both of its inputs, and the call with the second bound to zero. -/
def selection (second : Nat) : Tape Float :=
  { (new 2 {}).push (.foreign .call 0 0 1 [0, second]) with deps := some [3] }

theorem dropDead_selection :
    Scalar.lt (Scalar.zero : Float) Scalar.zero = false ∧ (Registry.selecting (V := Float)).Honest ∧
      (selection 1).dropDead .selecting = .ok (selection 2) ∧
      ((selection 1).observe .selecting [1, 2]).outcome
        = .ok { dependents := [1], compareFalse := 0 } ∧
      ∃ a', ((selection 2).observe .selecting [1, 2]).outcome = .ok a' ∧ a'.dependents = [1] := by
  have hdrop : (selection 1).dropDead .selecting = .ok (selection 2) := by
    with_unfolding_all rfl
  have ha : ((selection 1).observe .selecting [1, 2]).outcome
      = .ok { dependents := [1], compareFalse := 0 } := by rfl
  obtain ⟨a', ha', hdeps, -⟩ :=
    dropDead_preserves Binary64.zero_not_lt Registry.selecting_honest hdrop ha
  exact ⟨Binary64.zero_not_lt, Registry.selecting_honest, hdrop, ha, a', ha', hdeps⟩

end Tape

end OpTape
