/-!
# Operators

The five binary operators, their symbols, and the two facts that decide how a
flat line of operands and operators is grouped: priority and associativity.
-/

namespace Reckoner

/-- The binary operators. -/
inductive Operator where
  | add
  | sub
  | mul
  | div
  | pow
  deriving DecidableEq, Repr

namespace Operator

/-- All operators. -/
def all : List Operator := [add, sub, mul, div, pow]

/-- The character that stands for an operator. -/
def symbol : Operator → Char
  | add => '+'
  | sub => '-'
  | mul => '*'
  | div => '/'
  | pow => '^'

/-- The operator that a character stands for. -/
def ofSymbol? : Char → Option Operator
  | '+' => some add
  | '-' => some sub
  | '*' => some mul
  | '/' => some div
  | '^' => some pow
  | _ => none

theorem ofSymbol?_symbol (op : Operator) : ofSymbol? op.symbol = some op := by
  cases op <;> rfl

/-- How tightly an operator binds: powers first, then products, then sums. -/
def priority : Operator → Nat
  | add | sub => 1
  | mul | div => 2
  | pow => 3

/-- Whether a chain of the operator groups to the right; only powers do. -/
def isRightAssociative : Operator → Bool
  | pow => true
  | _ => false

instance : ToString Operator := ⟨fun op => String.singleton op.symbol⟩

end Operator
end Reckoner
