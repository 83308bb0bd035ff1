/-!
# Arities

How many arguments a function takes.
-/

namespace Reckoner

/-- The number of arguments that a function accepts. -/
inductive Arity where
  | zero
  | one
  | two
  | three
  /-- One argument or more. -/
  | atLeastOne
  /-- Any number of arguments, none included. -/
  | any
  deriving DecidableEq, Repr

namespace Arity

/-- Whether a call with `n` arguments is accepted. -/
def accepts (a : Arity) (n : Nat) : Bool :=
  match a with
  | zero => n == 0
  | one => n == 1
  | two => n == 2
  | three => n == 3
  | atLeastOne => 1 ≤ n
  | any => true

/-- The arity in words, as messages show it. -/
def text : Arity → String
  | zero => "0"
  | one => "1"
  | two => "2"
  | three => "3"
  | atLeastOne => "au moins 1"
  | any => "variable"

instance : ToString Arity := ⟨text⟩

end Arity
end Reckoner
