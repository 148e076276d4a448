/-
  Operator kinds: the names under which usages are listed and traced, and the shape of the
  argument slice that each kind occupies in the packed form of a tape.
-/
namespace OpTape

/-- Elementary functions of one value. -/
inductive UnaryOp
  | neg | abs | sign | sqrt | exp | expm1 | log | log1p | sin | cos | tan
  | asin | acos | atan | sinh | cosh | tanh
  deriving DecidableEq

/-- Arithmetic on two values. -/
inductive BinaryOp
  | add | sub | mul | div | pow
  deriving DecidableEq

/-- The two families of registered functions; each has its own ids. -/
inductive Family
  | call
  | map
  deriving DecidableEq

/-- What a usage does, without its operands. -/
inductive Kind
  | constant
  | unary (op : UnaryOp)
  | binary (op : BinaryOp)
  | discrete
  | compare
  | select
  | sum
  | vector
  | load
  | store
  | print
  | foreign (family : Family)
  deriving DecidableEq

namespace UnaryOp

def name : UnaryOp → String
  | neg => "neg"
  | abs => "abs"
  | sign => "sign"
  | sqrt => "sqrt"
  | exp => "exp"
  | expm1 => "expm1"
  | log => "log"
  | log1p => "log1p"
  | sin => "sin"
  | cos => "cos"
  | tan => "tan"
  | asin => "asin"
  | acos => "acos"
  | atan => "atan"
  | sinh => "sinh"
  | cosh => "cosh"
  | tanh => "tanh"

def all : List UnaryOp :=
  [neg, abs, sign, sqrt, exp, expm1, log, log1p, sin, cos, tan, asin, acos, atan, sinh, cosh,
    tanh]

theorem mem_all (op : UnaryOp) : op ∈ all := by
  cases op <;> decide

end UnaryOp

namespace BinaryOp

def name : BinaryOp → String
  | add => "add"
  | sub => "sub"
  | mul => "mul"
  | div => "div"
  | pow => "pow"

def all : List BinaryOp := [add, sub, mul, div, pow]

/-- The operators whose two operands may be exchanged. -/
def isCommutative : BinaryOp → Bool
  | add | mul => true
  | sub | div | pow => false

theorem mem_all (op : BinaryOp) : op ∈ all := by
  cases op <;> decide

end BinaryOp

namespace Family

def name : Family → String
  | call => "call"
  | map => "map"

end Family

namespace Kind

def name : Kind → String
  | constant => "con"
  | unary op => op.name
  | binary op => op.name
  | discrete => "dis"
  | compare => "comp"
  | select => "cexp"
  | sum => "csum"
  | vector => "vec"
  | load => "load"
  | store => "store"
  | print => "pri"
  | foreign family => family.name

/-- Every kind, in the order of their positions. -/
def all : List Kind :=
  [constant] ++ UnaryOp.all.map unary ++ BinaryOp.all.map binary ++
    [discrete, compare, select, sum, vector, load, store, print, foreign .call, foreign .map]

/-- The place of a kind in the list of all kinds. -/
def position (kind : Kind) : Nat := all.idxOf kind

def ofName? (name : String) : Option Kind := all.find? (·.name == name)

def isUnary : Kind → Bool
  | unary _ => true
  | _ => false

def isBinary : Kind → Bool
  | binary _ => true
  | _ => false

def isCommutative : Kind → Bool
  | binary op => op.isCommutative
  | _ => false

def family? : Kind → Option Family
  | foreign family => some family
  | _ => none

/-- How many leading slots of an argument slice are not value indices. -/
def headerSize : Kind → Nat
  | constant | discrete | compare | select | vector | load | store => 1
  | sum | print => 2
  | foreign _ => 4
  | unary _ | binary _ => 0

/-- How many closing slots of an argument slice are not value indices: the kinds without a
fixed slice size end with that size. -/
def trailerSize : Kind → Nat
  | sum | foreign _ => 1
  | _ => 0

/-- The size of the argument slice, for the kinds where every usage has the same. -/
def fixedSize? : Kind → Option Nat
  | constant | unary _ | vector => some 1
  | binary _ | discrete | load => some 2
  | compare | store => some 3
  | print => some 4
  | select => some 5
  | sum | foreign _ => none

theorem mem_all (kind : Kind) : kind ∈ all := by
  cases kind with
  | unary op => cases op <;> decide
  | binary op => cases op <;> decide
  | foreign family => cases family <;> decide
  | _ => decide

theorem fixedSize?_eq_none_iff (kind : Kind) : kind.fixedSize? = none ↔ kind.trailerSize = 1 := by
  cases kind <;> simp [fixedSize?, trailerSize]

end Kind

end OpTape
