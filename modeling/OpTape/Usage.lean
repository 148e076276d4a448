import OpTape.Comparison
/-
  One operation recorded on a tape. Operands are indices into the growing list of values;
  dynamic vectors are numbered in the order in which they are started.
-/
namespace OpTape

/-- One usage of an operator, with everything that was given when it was recorded. -/
inductive Usage (V : Type)
  | constant (value : V)
  | unary (op : UnaryOp) (x : Nat)
  | binary (op : BinaryOp) (left right : Nat)
  /-- The discrete function `id` of the registry, applied to `x`. -/
  | discrete (id x : Nat)
  /-- Counts a failure when the comparison does not hold; has no result. -/
  | compare (cmp : Comparison) (left right : Nat)
  /-- `ifTrue` when the comparison holds, else `ifFalse`. -/
  | select (cmp : Comparison) (left right ifTrue ifFalse : Nat)
  /-- The sum of the values `add` less the values `sub`. -/
  | sum (add sub : List Nat)
  /-- Starts the next dynamic vector from values that exist already. -/
  | vector (initial : List Nat)
  | load (which index : Nat)
  | store (which index value : Nat)
  /-- Writes the two texts around the value when the flag is positive. -/
  | print (before after : String) (flag value : Nat)
  /-- The registered function `id` of a family, applied to `inputs`. -/
  | foreign (family : Family) (id callId resultCount : Nat) (inputs : List Nat)
  deriving DecidableEq

namespace Usage

variable {V : Type}

def kind : Usage V → Kind
  | constant _ => .constant
  | unary op _ => .unary op
  | binary op _ _ => .binary op
  | discrete _ _ => .discrete
  | compare _ _ _ => .compare
  | select _ _ _ _ _ => .select
  | sum _ _ => .sum
  | vector _ => .vector
  | load _ _ => .load
  | store _ _ _ => .store
  | print _ _ _ _ => .print
  | foreign family _ _ _ _ => .foreign family

/-- The number of values a usage adds to the tape. -/
def resultCount : Usage V → Nat
  | compare _ _ _ | vector _ | store _ _ _ | print _ _ _ _ => 0
  | foreign _ _ _ n _ => n
  | _ => 1

/-- The number of values that all usages of a list add. -/
def resultTotal : List (Usage V) → Nat
  | [] => 0
  | u :: rest => u.resultCount + resultTotal rest

@[simp] theorem resultTotal_nil : resultTotal ([] : List (Usage V)) = 0 := rfl

@[simp] theorem resultTotal_cons (u : Usage V) (rest : List (Usage V)) :
    resultTotal (u :: rest) = u.resultCount + resultTotal rest := rfl

@[simp] theorem resultTotal_append (us vs : List (Usage V)) :
    resultTotal (us ++ vs) = resultTotal us + resultTotal vs := by
  induction us with
  | nil => simp
  | cons u us ih => rw [List.cons_append, resultTotal_cons, resultTotal_cons, ih]; omega

/-- The operands that stand in the argument slice, in order. The initial values of a vector
are kept apart and are not among them. -/
def args : Usage V → List Nat
  | constant _ | vector _ => []
  | unary _ x => [x]
  | binary _ left right => [left, right]
  | discrete _ x => [x]
  | compare _ left right => [left, right]
  | select _ left right ifTrue ifFalse => [left, right, ifTrue, ifFalse]
  | sum add sub => add ++ sub
  | load _ index => [index]
  | store _ index value => [index, value]
  | print _ _ flag value => [flag, value]
  | foreign _ _ _ _ inputs => inputs

/-- The values a vector starts from. -/
def initials : Usage V → List Nat
  | vector initial => initial
  | _ => []

/-- Every value a usage reads. -/
def reads (u : Usage V) : List Nat := u.args ++ u.initials

/-- The dynamic vector a usage works on, if it loads or stores. -/
def vector? : Usage V → Option Nat
  | load which _ => some which
  | store which _ _ => some which
  | _ => none

def startsVector : Usage V → Bool
  | vector _ => true
  | _ => false

/-- The usage fits behind a tape with `values` values and `vectors` vectors: all that it reads
exists there. -/
def Fits (values vectors : Nat) (u : Usage V) : Prop :=
  (∀ i ∈ u.reads, i < values) ∧ ∀ w ∈ u.vector?, w < vectors

instance (values vectors : Nat) (u : Usage V) : Decidable (u.Fits values vectors) :=
  inferInstanceAs (Decidable (_ ∧ _))

/-- A unary or binary usage of the given kind. No other kind, and no other number of operands,
makes one. -/
def ofOperands? : Kind → List Nat → Option (Usage V)
  | .unary op, [x] => some (unary op x)
  | .binary op, [left, right] => some (binary op left right)
  | _, _ => none

/-- The usage with each value replaced through `value` and each vector through `vector`; none
if one of them has no replacement. -/
def rename? (value : Nat → Option Nat) (vector : Nat → Option Nat) :
    Usage V → Option (Usage V)
  | constant v => some (constant v)
  | unary op x => return unary op (← value x)
  | binary op left right => return binary op (← value left) (← value right)
  | discrete id x => return discrete id (← value x)
  | compare cmp left right => return compare cmp (← value left) (← value right)
  | select cmp left right ifTrue ifFalse =>
    return select cmp (← value left) (← value right) (← value ifTrue) (← value ifFalse)
  | sum add sub => return sum (← add.mapM value) (← sub.mapM value)
  | .vector initial => return .vector (← initial.mapM value)
  | load which index => return load (← vector which) (← value index)
  | store which index x => return store (← vector which) (← value index) (← value x)
  | print before after flag x => return print before after (← value flag) (← value x)
  | foreign family id callId n inputs =>
    return foreign family id callId n (← inputs.mapM value)

end Usage

end OpTape
