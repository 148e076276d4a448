import OpTape.Session
/-
  What a machine with words of 64 bits can hold. Values are numbered and counted by words, so
  recording ends where the count would leave the words. Much earlier a table with one word for
  each value exceeds the memory that can be addressed; evaluating and the passes keep such
  tables.
-/
namespace OpTape

/-- The number of words. -/
def wordCount : Nat := 18446744073709551616

/-- The number of words from which on a table of them is too large: its bytes are counted by a
signed word. -/
def tableLimit : Nat := 1152921504606846976

namespace Tape

variable {V : Type}

/-- The number of values is a word. -/
def IsCountable (t : Tape V) : Prop := t.valueCount < wordCount

instance (t : Tape V) : Decidable t.IsCountable := inferInstanceAs (Decidable (_ < _))

/-- A table can have an entry for each value. -/
def IsTabulable (t : Tape V) : Prop := t.valueCount < tableLimit

instance (t : Tape V) : Decidable t.IsTabulable := inferInstanceAs (Decidable (_ < _))

/-- The tape, unless it has more values than can be counted. -/
def countable? (t : Tape V) : Option (Tape V) := if t.IsCountable then some t else none

/-- Records one usage as long as the values can be counted. -/
def recordCounted? (t : Tape V) (u : Usage V) : Option (Recorded × Tape V) := do
  let (offer, new) ← t.record? u
  return (offer, ← new.countable?)

theorem IsTabulable.isCountable {t : Tape V} (h : t.IsTabulable) : t.IsCountable := by
  unfold IsTabulable tableLimit at h
  unfold IsCountable wordCount
  omega

/-- Below the limit of counting, recording is what it is without one. -/
theorem recordCounted?_eq {t : Tape V} {u : Usage V}
    (h : t.valueCount + u.resultCount < wordCount) : t.recordCounted? u = t.record? u := by
  have new : (t.push u).IsCountable := h
  simp only [recordCounted?, record?, append?]
  split <;> simp [countable?, new]

/-- Works on a tape with tables of its values. -/
def tabulate {α : Type} (t : Tape V) (work : Tape V → Except (Fault V) α) :
    Except (Fault V) α :=
  if t.IsTabulable then work t else .error .contract

/-- The values of the dependents at `x`, if a table of all values can be had. -/
def tabulatedOutputsAt [Scalar V] (t : Tape V) (r : Registry V) (x : List V) :
    Except (Fault V) (List V) :=
  if x.length = t.indCount then t.tabulate (·.outputsAt r x) else t.outputsAt r x

end Tape

namespace Request

/-- The request is carried out with tables of all values, whatever comes with it. -/
def isTabular {V : Type} : Request V → Bool
  | dropDead | mergeEqual | foldConstants | fuseSums | optimize => true
  | _ => false

end Request

namespace Session

variable {V : Type} [Scalar V] [DecidableEq V]

/-- One request, as far as the machine can hold what it leads to. -/
def performCounted? (s : Session V) (request : Request V) :
    Option (Except (Refusal V) (Reply V) × Session V) :=
  if request.isTabular ∧ ¬ s.tape.IsTabulable then none
  else
    let (result, new) := s.perform request
    if new.tape.IsCountable then some (result, new) else none

/-- Below the limits, a request is carried out as it is without them. -/
theorem performCounted?_eq {s : Session V} {request : Request V} (hold : s.tape.IsTabulable)
    (hnew : (s.perform request).2.tape.IsCountable) :
    s.performCounted? request = some (s.perform request) := by
  simp [performCounted?, hold, hnew]

end Session

end OpTape
