import OpTape.Scalar
/-
  The comparisons that compare and select usages carry.
-/
namespace OpTape

/-- A test between two values. -/
inductive Comparison
  | eq
  | ne
  | lt
  | le
  /-- The disabled comparison: it holds of any two values. -/
  | always
  deriving DecidableEq

namespace Comparison

def all : List Comparison := [eq, ne, lt, le, always]

/-- The number that stands for a comparison in an argument slice. -/
def code : Comparison → Nat
  | eq => 0
  | ne => 1
  | lt => 2
  | le => 3
  | always => 4

def name : Comparison → String
  | eq => "eq"
  | ne => "ne"
  | lt => "lt"
  | le => "le"
  | always => "no"

def ofCode? (code : Nat) : Option Comparison := all.find? (·.code == code)

def ofName? (name : String) : Option Comparison := all.find? (·.name == name)

def holds {V : Type} [Scalar V] : Comparison → V → V → Bool
  | eq, left, right => Scalar.eq left right
  | ne, left, right => !Scalar.eq left right
  | lt, left, right => Scalar.lt left right
  | le, left, right => Scalar.le left right
  | always, _, _ => true

theorem ofCode?_code (cmp : Comparison) : ofCode? cmp.code = some cmp := by
  cases cmp <;> rfl

theorem ofName?_name (cmp : Comparison) : ofName? cmp.name = some cmp := by
  cases cmp <;> decide

theorem code_injective {a b : Comparison} (h : a.code = b.code) : a = b := by
  have := ofCode?_code a
  rw [h, ofCode?_code b] at this
  exact (Option.some.inj this).symm

end Comparison

end OpTape
