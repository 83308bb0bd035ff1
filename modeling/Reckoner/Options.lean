/-!
# Options

What a calculation may be told besides its expression: how many significant
digits an inexact result keeps, what zero divided by zero is, and the limits that
protect against pathological entries.
-/

namespace Reckoner

/-- Bounds on the size of what is accepted. -/
structure Limits where
  /-- How deep parentheses and calls may be nested. -/
  depth : Nat := 256
  /-- How tall an expression tree may be. -/
  height : Nat := 2048
  /-- How many characters an entry may have. -/
  length : Nat := 65536
  /-- How large the magnitude of an exponent may be. -/
  exponent : Nat := 1000000
  deriving DecidableEq, Repr, Inhabited

/-- What zero divided by zero is. -/
inductive ZeroOverZero where
  /-- A division by zero like any other. -/
  | fault
  /-- Zero, because the dividend is looked at first. -/
  | zero
  deriving DecidableEq, Repr, Inhabited

/-- The options of a calculation. -/
structure Options where
  /-- Significant digits of an inexact result. -/
  precision : Nat := 34
  /-- The policy for zero divided by zero. -/
  zeroOverZero : ZeroOverZero := .fault
  /-- The limits. -/
  limits : Limits := {}
  deriving DecidableEq, Repr, Inhabited

end Reckoner
