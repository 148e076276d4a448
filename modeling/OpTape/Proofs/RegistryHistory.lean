import OpTape.Registry.Changes
import OpTape.Proofs.Traversal
/-
  A registry and its history. `Performed` lists what a request can do to a registry, and `Refused`
  why one is refused. The log of the requests that were granted determines the tables
  (`Logged`): an entry stands for a registration since the last clearing, and it is live unless a
  deletion of it was granted since. So everything that a registry answers can be read off the log
  (`answers_of_history`).
-/
namespace OpTape.Registry

variable {V : Type}

/-! ## What a request can do -/

/-- Why a request is refused. -/
inductive Refused (r : Registry V) : Change V → Fault V → Prop
  | unknown {family : Family} {id : Nat} (h : r.entry? family id = none) :
      Refused r (.delete family id) (.unknownFunction family id)
  | deleted {family : Family} {id : Nat} {name : String}
      (h : r.entry? family id = some (.deleted name)) :
      Refused r (.delete family id) (.deletedFunction family id)
  | inUse (h : r.live ≠ 0) : Refused r .clear (.registryInUse r.live)

/-- What a request can do. -/
inductive Performed (r : Registry V) :
    Change V → Except (Fault V) (Option Nat) → Registry V → Prop
  | refused {c : Change V} {fault : Fault V} (h : r.Refused c fault) :
      Performed r c (.error fault) r
  | registered (family : Family) (f : Foreign V) :
      Performed r (.register family f) (.ok (some (r.table family).size))
        (r.withTable family ((r.table family).push (.live f)))
  | registeredDiscrete (g : Discrete V) :
      Performed r (.registerDiscrete g) (.ok (some r.discretes.size))
        { r with discretes := r.discretes.push g }
  | deleted {family : Family} {id : Nat} {f : Foreign V}
      (h : r.entry? family id = some (.live f)) :
      Performed r (.delete family id) (.ok none)
        (r.withTable family ((r.table family).setIfInBounds id (.deleted f.name)))
  | cleared (h : r.live = 0) :
      Performed r .clear (.ok none) { r with calls := #[], maps := #[] }

/-- Writing an entry where it stands changes nothing. -/
theorem withTable_setIfInBounds_self {r : Registry V} {family : Family} {id : Nat}
    {entry : Entry V} (h : r.entry? family id = some entry) :
    r.withTable family ((r.table family).setIfInBounds id entry) = r := by
  have hself : (r.table family).setIfInBounds id entry = r.table family := by
    refine Array.ext_getElem? fun i => ?_
    rw [Array.getElem?_setIfInBounds]
    split
    · rename_i heq
      subst heq
      have hlt : id < (r.table family).size := (Array.getElem?_eq_some_iff.mp h).1
      rw [if_pos hlt]
      exact h.symm
    · rfl
  rw [hself]
  cases family <;> rfl

/-- Requests do what `Performed` lists. Taking the function out of an entry without one leaves the
entry as it is, so a refused deletion is no exception. -/
theorem performs (r : Registry V) (c : Change V) :
    r.Performed c (r.perform c).1 (r.perform c).2 := by
  cases c with
  | register family f => exact .registered family f
  | registerDiscrete g => exact .registeredDiscrete g
  | delete family id =>
    cases hentry : r.entry? family id with
    | none =>
      simp only [perform, hentry]
      exact .refused (.unknown hentry)
    | some entry =>
      cases entry with
      | live f =>
        simp only [perform, hentry]
        exact .deleted hentry
      | deleted name =>
        simp only [perform, hentry, Entry.name, withTable_setIfInBounds_self hentry]
        exact .refused (.deleted hentry)
  | clear =>
    unfold perform
    dsimp only
    split
    · exact .cleared ‹_›
    · exact .refused (.inUse ‹_›)

/-- Deleting in place comes to the same as deleting in a copy that is kept if nothing fails. -/
theorem perform_delete (r : Registry V) (family : Family) (id : Nat) :
    r.perform (.delete family id) = match r.delete family id with
      | .ok new => (.ok none, new)
      | .error fault => (.error fault, r) := by
  cases hentry : r.entry? family id with
  | none =>
    simp only [perform, delete, get, hentry]
    rfl
  | some entry =>
    cases entry with
    | live f =>
      simp only [perform, delete, get, hentry]
      rfl
    | deleted name =>
      simp only [perform, delete, get, hentry, Entry.name, withTable_setIfInBounds_self hentry]
      rfl

theorem perform_clear (r : Registry V) : r.perform .clear = match r.clear with
    | .ok new => (.ok none, new)
    | .error fault => (.error fault, r) := by
  unfold clear perform
  dsimp only
  split <;> rfl

/-! ## Histories -/

/-- The registry after a history of requests. -/
def after (r : Registry V) (history : List (Change V)) : Registry V :=
  history.foldl (fun r c => (r.perform c).2) r

/-- The log of a history: the requests that are granted, in order. -/
def granted (r : Registry V) : List (Change V) → List (Change V)
  | [] => []
  | c :: rest =>
    if (r.perform c).1.isOk then c :: (r.perform c).2.granted rest
    else (r.perform c).2.granted rest

namespace Change

def isClear : Change V → Bool
  | clear => true
  | _ => false

def isRegister : Change V → Bool
  | register _ _ => true
  | _ => false

def isDelete : Change V → Bool
  | delete _ _ => true
  | _ => false

/-- The change deletes this very function. -/
def deletes (family : Family) (id : Nat) : Change V → Bool
  | delete family' id' => family' == family && id' == id
  | _ => false

/-- The function that the change adds to the family, if it does. -/
def function? (family : Family) : Change V → Option (Foreign V)
  | register family' f => if family' = family then some f else none
  | _ => none

def discrete? : Change V → Option (Discrete V)
  | registerDiscrete g => some g
  | _ => none

/-- The part of a log behind the last clearing. -/
def sinceClear (log : List (Change V)) : List (Change V) :=
  (log.reverse.takeWhile (!·.isClear)).reverse

/-- The functions that a log adds to a family. -/
def functions (family : Family) (log : List (Change V)) : List (Foreign V) :=
  log.filterMap (function? family)

/-- The discrete functions that a log adds. -/
def discreteFunctions (log : List (Change V)) : List (Discrete V) := log.filterMap discrete?

/-- What a log without a clearing leaves under an id: the function that was given it, or its name
alone once it was deleted. -/
def entryOf (recent : List (Change V)) (family : Family) (id : Nat) : Option (Entry V) :=
  (functions family recent)[id]?.map fun f =>
    if recent.any (deletes family id) then .deleted f.name else .live f

theorem sinceClear_concat (log : List (Change V)) (c : Change V) :
    sinceClear (log ++ [c]) = if c.isClear then [] else sinceClear log ++ [c] := by
  unfold sinceClear
  rw [List.reverse_append, List.reverse_singleton, List.singleton_append, List.takeWhile_cons]
  cases c.isClear <;> simp

theorem functions_concat (family : Family) (log : List (Change V)) (c : Change V) :
    functions family (log ++ [c]) = functions family log ++ (function? family c).toList := by
  unfold functions
  rw [List.filterMap_append]
  cases h : function? family c <;> simp [h]

theorem discreteFunctions_concat (log : List (Change V)) (c : Change V) :
    discreteFunctions (log ++ [c]) = discreteFunctions log ++ (discrete? c).toList := by
  unfold discreteFunctions
  rw [List.filterMap_append]
  cases h : discrete? c <;> simp [h]

section

variable {recent : List (Change V)} {family : Family} {id : Nat}

theorem any_deletes_register (family' : Family) (f : Foreign V) :
    (recent ++ [register family' f]).any (deletes family id) = recent.any (deletes family id) := by
  rw [List.any_append]
  exact Bool.or_false _

theorem any_deletes_delete (family' : Family) (id' : Nat) :
    (recent ++ [delete family' id']).any (deletes family id) = true ↔
      recent.any (deletes family id) = true ∨ family' = family ∧ id' = id := by
  rw [List.any_append, Bool.or_eq_true]
  simp [deletes]

theorem functions_register (family : Family) (f : Foreign V) :
    functions family (recent ++ [register family f]) = functions family recent ++ [f] := by
  rw [functions_concat, function?, if_pos rfl]
  rfl

theorem functions_register_of_ne {family' : Family} (h : family ≠ family') (f : Foreign V) :
    functions family (recent ++ [register family' f]) = functions family recent := by
  rw [functions_concat, function?, if_neg h.symm]
  exact List.append_nil _

theorem functions_delete (family' : Family) (id : Nat) :
    functions family (recent ++ [delete family' id]) = functions family recent := by
  rw [functions_concat]
  exact List.append_nil _

/-- A registration puts its function under the next id, which was not deleted before. -/
theorem entryOf_register (hdeleted : recent.any (deletes family (functions family recent).length)
    = false) (f : Foreign V) (family' : Family) (id : Nat) :
    entryOf (recent ++ [register family f]) family' id
      = if family' = family ∧ id = (functions family recent).length then some (.live f)
        else entryOf recent family' id := by
  unfold entryOf
  rw [any_deletes_register]
  by_cases hfamily : family' = family
  · subst hfamily
    rw [functions_register]
    by_cases hid : id = (functions family' recent).length
    · subst hid
      simp [hdeleted]
    · have hnot : ¬ (family' = family' ∧ id = (functions family' recent).length) :=
        fun hand => hid hand.2
      have hsame : (functions family' recent ++ [f])[id]? = (functions family' recent)[id]? := by
        rcases Nat.lt_or_ge id (functions family' recent).length with hlt | hge
        · exact List.getElem?_append_left hlt
        · rw [List.getElem?_eq_none hge, List.getElem?_eq_none]
          rw [List.length_append, List.length_singleton]
          omega
      rw [if_neg hnot, hsame]
  · rw [functions_register_of_ne hfamily, if_neg fun h => hfamily h.1]

/-- A deletion leaves the name of the function that it takes. -/
theorem entryOf_delete {f : Foreign V} (hf : (functions family recent)[id]? = some f)
    (family' : Family) (id' : Nat) : entryOf (recent ++ [delete family id]) family' id'
      = if family' = family ∧ id' = id then some (.deleted f.name)
        else entryOf recent family' id' := by
  unfold entryOf
  rw [functions_delete]
  by_cases hthis : family' = family ∧ id' = id
  · obtain ⟨rfl, rfl⟩ := hthis
    rw [if_pos ⟨rfl, rfl⟩, hf, Option.map_some,
      if_pos ((any_deletes_delete ..).mpr (Or.inr ⟨rfl, rfl⟩))]
  · have hsame : (recent ++ [delete family id]).any (deletes family' id')
        = recent.any (deletes family' id') := by
      rw [Bool.eq_iff_iff, any_deletes_delete]
      exact or_iff_left fun h => hthis ⟨h.1.symm, h.2.symm⟩
    rw [if_neg hthis, hsame]

theorem exists_function_of_entryOf {f : Foreign V}
    (h : entryOf recent family id = some (.live f)) :
    (functions family recent)[id]? = some f := by
  obtain ⟨g, hg, hlive⟩ := Option.map_eq_some_iff.mp h
  split at hlive
  · cases hlive
  · obtain rfl := Entry.live.inj hlive
    exact hg

end

end Change

open Change

/-- What the log since the last clearing says about the tables of both families. -/
structure Listed (recent : List (Change V)) (r : Registry V) : Prop where
  size : ∀ family, (r.table family).size = (functions family recent).length
  entry : ∀ family id, r.entry? family id = entryOf recent family id
  deleted : ∀ family id, recent.any (deletes family id) = true →
    id < (functions family recent).length
  live : r.live + recent.countP isDelete = recent.countP isRegister

/-- What the log of a registry says about it. -/
structure Logged (log : List (Change V)) (r : Registry V) : Prop where
  listed : Listed (sinceClear log) r
  discretes : r.discretes.toList = discreteFunctions log

theorem listed_nil (discretes : Array (Discrete V)) :
    Listed [] ({ calls := #[], maps := #[], discretes } : Registry V) where
  size family := by cases family <;> rfl
  entry family id := by cases family <;> rfl
  deleted family id h := by cases h
  live := rfl

theorem logged_empty : Logged [] (empty : Registry V) := ⟨listed_nil #[], rfl⟩

theorem live_register (r : Registry V) (family : Family) (f : Foreign V) :
    (r.withTable family ((r.table family).push (.live f))).live = r.live + 1 := by
  cases family with
  | call =>
    simp only [withTable, table, live, Array.countP_push, Entry.isLive, if_true]
    omega
  | map =>
    simp only [withTable, table, live, Array.countP_push, Entry.isLive, if_true]
    omega

theorem live_delete {r : Registry V} {family : Family} {id : Nat} {f : Foreign V}
    (h : r.entry? family id = some (.live f)) :
    (r.withTable family ((r.table family).setIfInBounds id (.deleted f.name))).live + 1
      = r.live := by
  obtain ⟨hlt, hget⟩ := Array.getElem?_eq_some_iff.mp h
  have hcount : ((r.table family).setIfInBounds id (.deleted f.name)).countP Entry.isLive + 1
      = (r.table family).countP Entry.isLive := by
    have hpos : 0 < (r.table family).countP Entry.isLive :=
      Array.countP_pos_iff.mpr ⟨_, Array.mem_of_getElem hget, rfl⟩
    rw [Array.setIfInBounds, dif_pos hlt, Array.countP_set, hget]
    simp only [Entry.isLive, if_true, Bool.false_eq_true, if_false]
    omega
  cases family with
  | call =>
    simp only [withTable, table, live] at hcount ⊢
    omega
  | map =>
    simp only [withTable, table, live] at hcount ⊢
    omega

section

variable {log recent : List (Change V)} {r r' : Registry V}

theorem entry?_withTable_push (r : Registry V) (family : Family) (entry : Entry V)
    (family' : Family) (id : Nat) :
    entry? (r.withTable family ((r.table family).push entry)) family' id
      = if family' = family ∧ id = (r.table family).size then some entry
        else r.entry? family' id := by
  unfold entry?
  by_cases hfamily : family' = family
  · subst hfamily
    rw [table_withTable_self, Array.getElem?_push]
    simp
  · rw [table_withTable_of_ne r hfamily, if_neg (fun h => hfamily h.1)]

theorem entry?_withTable_set (r : Registry V) {family : Family} {id : Nat} {old : Entry V}
    (h : r.entry? family id = some old) (entry : Entry V) (family' : Family) (id' : Nat) :
    entry? (r.withTable family ((r.table family).setIfInBounds id entry)) family' id'
      = if family' = family ∧ id' = id then some entry else r.entry? family' id' := by
  unfold entry?
  by_cases hfamily : family' = family
  · subst hfamily
    have hlt : id < (r.table family').size := (Array.getElem?_eq_some_iff.mp h).1
    rw [table_withTable_self, Array.getElem?_setIfInBounds]
    by_cases hid : id' = id
    · subst hid
      simp [hlt]
    · simp [hid, Ne.symm hid]
  · rw [table_withTable_of_ne r hfamily, if_neg (fun h => hfamily h.1)]

/-- A new function is live at the end of its table. -/
theorem Listed.registered (h : Listed recent r) (family : Family) (f : Foreign V) :
    Listed (recent ++ [.register family f])
      (r.withTable family ((r.table family).push (.live f))) where
  size family' := by
    by_cases heq : family' = family
    · subst heq
      simp [functions_register, h.size]
    · rw [table_withTable_of_ne r heq, functions_register_of_ne heq, h.size]
  entry family' id := by
    have hnew : recent.any (deletes family (functions family recent).length) = false := by
      rw [← Bool.not_eq_true]
      exact fun hdeleted => Nat.lt_irrefl _ (h.deleted family _ hdeleted)
    rw [entry?_withTable_push, entryOf_register hnew, h.size, h.entry]
  deleted family' id hid := by
    rw [any_deletes_register] at hid
    rw [functions_concat, List.length_append]
    exact Nat.lt_of_lt_of_le (h.deleted family' id hid) (Nat.le_add_right _ _)
  live := by
    rw [live_register, List.countP_append, List.countP_append, ← h.live]
    show _ + (recent.countP isDelete + 0) = _ + 1
    omega

/-- A deleted function leaves its name where it stood, and no other entry changes. -/
theorem Listed.deleting (h : Listed recent r) {family : Family} {id : Nat} {f : Foreign V}
    (hentry : r.entry? family id = some (.live f)) :
    Listed (recent ++ [.delete family id])
      (r.withTable family ((r.table family).setIfInBounds id (.deleted f.name))) := by
  have hfunction := exists_function_of_entryOf ((h.entry family id).symm.trans hentry)
  refine ⟨fun family' => ?_, fun family' id' => ?_, fun family' id' hid => ?_, ?_⟩
  · rw [functions_delete, ← h.size]
    by_cases heq : family' = family
    · subst heq
      rw [table_withTable_self, Array.size_setIfInBounds]
    · rw [table_withTable_of_ne r heq]
  · rw [entry?_withTable_set r hentry, entryOf_delete hfunction, h.entry]
  · rw [functions_delete]
    rcases (any_deletes_delete ..).mp hid with hid | ⟨rfl, rfl⟩
    · exact h.deleted family' id' hid
    · exact (List.getElem?_eq_some_iff.mp hfunction).1
  · have hlive := live_delete hentry
    have hcount := h.live
    rw [List.countP_append, List.countP_append]
    show _ + (_ + 1) = _ + 0
    omega

/-- A discrete function leaves the tables of both families alone. -/
theorem Listed.registeredDiscrete (h : Listed recent r) (g : Discrete V) :
    Listed (recent ++ [.registerDiscrete g])
      { r with discretes := r.discretes.push g } := by
  have htable (family : Family) :
      ({ r with discretes := r.discretes.push g } : Registry V).table family = r.table family := by
    cases family <;> rfl
  have hfunctions (family : Family) :
      functions family (recent ++ [.registerDiscrete g]) = functions family recent := by
    rw [functions_concat]
    exact List.append_nil _
  have hdeletes (family : Family) (id : Nat) :
      (recent ++ [Change.registerDiscrete g]).any (deletes family id)
        = recent.any (deletes family id) := by
    rw [List.any_append]
    exact Bool.or_false _
  refine ⟨fun family => ?_, fun family id => ?_, fun family id hid => ?_, ?_⟩
  · rw [htable, hfunctions, h.size]
  · unfold entry? entryOf
    rw [htable, hfunctions, hdeletes]
    exact h.entry family id
  · rw [hdeletes] at hid
    rw [hfunctions]
    exact h.deleted family id hid
  · rw [List.countP_append, List.countP_append]
    exact h.live

/-- The log grows by each request that is granted, and says what the tables are throughout. -/
theorem Performed.logged {c : Change V} {answer : Except (Fault V) (Option Nat)}
    (h : r.Performed c answer r') (hlog : Logged log r) :
    Logged (if answer.isOk then log ++ [c] else log) r' := by
  -- a request that registers no discrete function adds none to the log
  have hsame (h : discrete? c = none) : discreteFunctions (log ++ [c]) = discreteFunctions log := by
    rw [discreteFunctions_concat, h, Option.toList_none, List.append_nil]
  cases h with
  | refused => exact hlog
  | registered family f =>
    refine ⟨sinceClear_concat log _ ▸ hlog.listed.registered family f, ?_⟩
    rw [discretes_withTable, hlog.discretes]
    exact (hsame rfl).symm
  | registeredDiscrete g =>
    refine ⟨sinceClear_concat log _ ▸ hlog.listed.registeredDiscrete g, ?_⟩
    rw [Array.toList_push, hlog.discretes]
    exact (discreteFunctions_concat log (.registerDiscrete g)).symm
  | deleted hentry =>
    refine ⟨sinceClear_concat log _ ▸ hlog.listed.deleting hentry, ?_⟩
    rw [discretes_withTable, hlog.discretes]
    exact (hsame rfl).symm
  | cleared =>
    exact ⟨sinceClear_concat log _ ▸ listed_nil r.discretes, hlog.discretes.trans (hsame rfl).symm⟩

theorem logged_after (hlog : Logged log r) (history : List (Change V)) :
    Logged (log ++ r.granted history) (r.after history) := by
  induction history generalizing log r with
  | nil =>
    rw [granted, List.append_nil]
    exact hlog
  | cons c rest ih =>
    have hnext := ih ((performs r c).logged hlog)
    rw [granted]
    split
    · rename_i hok
      rw [if_pos hok, List.append_assoc] at hnext
      exact hnext
    · rename_i hnot
      rw [if_neg hnot] at hnext
      exact hnext

/-! ## Answers -/

theorem Listed.get_eq (h : Listed recent r) (family : Family) (id : Nat) :
    r.get family id = match (functions family recent)[id]? with
      | none => .error (.unknownFunction family id)
      | some f =>
        if recent.any (deletes family id) then .error (.deletedFunction family id) else .ok f := by
  unfold get
  rw [h.entry, entryOf]
  cases (functions family recent)[id]? with
  | none => rfl
  | some f => cases recent.any (deletes family id) <;> rfl

theorem Performed.unchanged {c : Change V} {fault : Fault V}
    (h : r.Performed c (.error fault) r') : r' = r := by
  cases h with
  | refused => rfl

/-- What a deletion answers, and that it touches no other entry. -/
theorem Performed.deletion {family : Family} {id : Nat}
    {answer : Except (Fault V) (Option Nat)} (h : r.Performed (.delete family id) answer r') :
    answer = (r.get family id).map (fun _ => none) ∧
      (answer.isOk = true → r'.get family id = .error (.deletedFunction family id)) ∧
      (∀ family' id', (family', id') ≠ (family, id) →
        r'.entry? family' id' = r.entry? family' id') ∧ r'.discretes = r.discretes := by
  cases h with
  | refused h =>
    refine ⟨?_, fun hok => absurd hok Bool.false_ne_true, fun _ _ _ => rfl, rfl⟩
    cases h with
    | unknown hentry | deleted hentry =>
      rw [get, hentry]
      rfl
  | deleted hentry =>
    refine ⟨?_, fun _ => ?_, fun family' id' hne => ?_, discretes_withTable ..⟩
    · rw [get, hentry]
      rfl
    · rw [get, entry?_withTable_set r hentry, if_pos ⟨rfl, rfl⟩]
    · rw [entry?_withTable_set r hentry, if_neg]
      rintro ⟨rfl, rfl⟩
      exact hne rfl

theorem Performed.clearing {answer : Except (Fault V) (Option Nat)}
    (h : r.Performed .clear answer r') :
    answer = if r.live = 0 then .ok none else .error (.registryInUse r.live) := by
  cases h with
  | refused h =>
    cases h with
    | inUse hlive => rw [if_neg hlive]
  | cleared hzero => rw [if_pos hzero]

/-- Discrete functions are never refused, so their log is the history itself. -/
theorem discreteFunctions_granted (r : Registry V) (history : List (Change V)) :
    discreteFunctions (r.granted history) = discreteFunctions history := by
  induction history generalizing r with
  | nil => rfl
  | cons c rest ih =>
    have hrest := ih (r.perform c).2
    unfold discreteFunctions at hrest ⊢
    rw [granted]
    cases c with
    | registerDiscrete g =>
      show _ = g :: _
      rw [← hrest]
      rfl
    | register family f =>
      show _ = rest.filterMap discrete?
      rw [← hrest]
      rfl
    | delete | clear =>
      show _ = rest.filterMap discrete?
      split
      · exact hrest
      · exact hrest

end

/-- Everything that a registry answers follows from the history that led to it from the empty
one. A registration is given the number of those before it in its family, since the last clearing;
an id leads to the function that was given it, unless this was deleted since. Deleting works
exactly where the function can be had, and touches nothing else. Clearing works exactly when no
function is live, and the answer says how many are. A request that is refused changes nothing.
Discrete functions stay under their numbers, whatever is asked later. -/
theorem answers_of_history (history : List (Change V)) :
    let r := (empty : Registry V).after history
    let recent := sinceClear ((empty : Registry V).granted history)
    (∀ family f, (r.perform (.register family f)).1
      = .ok (some (functions family recent).length)) ∧
    (∀ family id, r.get family id = match (functions family recent)[id]? with
      | none => .error (.unknownFunction family id)
      | some f =>
        if recent.any (deletes family id) then .error (.deletedFunction family id) else .ok f) ∧
    (∀ family id, (r.perform (.delete family id)).1 = (r.get family id).map (fun _ => none) ∧
      ((r.perform (.delete family id)).1.isOk = true →
        (r.perform (.delete family id)).2.get family id = .error (.deletedFunction family id)) ∧
      (∀ family' id', (family', id') ≠ (family, id) →
        entry? (r.perform (.delete family id)).2 family' id' = r.entry? family' id') ∧
      (r.perform (.delete family id)).2.discretes = r.discretes) ∧
    r.live + recent.countP isDelete = recent.countP isRegister ∧
    (r.perform .clear).1
      = (if r.live = 0 then .ok none else .error (.registryInUse r.live)) ∧
    (∀ c fault, (r.perform c).1 = .error fault → (r.perform c).2 = r) ∧
    ∀ id g, (discreteFunctions history)[id]? = some g →
      ∀ later, (r.after later).getDiscrete id = .ok g := by
  intro r recent
  have hlog : Logged ((empty : Registry V).granted history) r := logged_after logged_empty history
  refine ⟨fun family f => ?_, hlog.listed.get_eq, fun family id => (performs r _).deletion,
    hlog.listed.live, (performs r _).clearing, fun c fault hfault => ?_, fun id g hg later => ?_⟩
  · rw [← hlog.listed.size]
    rfl
  · have hstep := performs r c
    rw [hfault] at hstep
    exact hstep.unchanged
  · have hlater := (logged_after hlog later).discretes
    have hall : discreteFunctions ((empty : Registry V).granted history ++ r.granted later)
        = discreteFunctions history ++ discreteFunctions later := by
      rw [← discreteFunctions_granted empty history, ← discreteFunctions_granted r later]
      exact List.filterMap_append
    have hid : (r.after later).discretes[id]? = some g := by
      rw [← Array.getElem?_toList, hlater, hall,
        List.getElem?_append_left (List.getElem?_eq_some_iff.mp hg).1, hg]
    rw [getDiscrete, hid]

end OpTape.Registry
