import Reckoner.Value.Basic

/-!
# Choosing the representation

Each function here takes a number and decides how it is written.  `ofDecimal`
keeps a decimal unless it is an integer; `approximate` rounds to significant digits
first.  A quotient of integers takes more thought (`Arithmetic.quotient`).
-/

namespace Reckoner
namespace Value

/-- The value of a decimal: trailing zeros go, and an integer becomes one. -/
def ofDecimal (d : Decimal) : Value :=
  let d := d.normalize
  if d.scale = 0 then integer d.mantissa else decimal d

/-- The value `mantissa / 10 ^ scale`. -/
def scaled (mantissa : Int) (scale : Nat) : Value := ofDecimal ⟨mantissa, scale⟩

/-- The value of a rational rounded to `digits` significant digits. -/
def approximate (q : Rat) (digits : Nat) : Value := ofDecimal (Decimal.significant q digits)

end Value
end Reckoner
