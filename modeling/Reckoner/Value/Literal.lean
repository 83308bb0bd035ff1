import Reckoner.Fault
import Reckoner.Value.Canonical

/-!
# Number literals

A literal is an optional sign, digits with at most one point among or before
them, and an optional power of ten: `7`, `-2.50`, `.5`, `1.5e-3`.  A point must be
followed by a digit.  `readLiteral` gives the canonical value of a literal, and a
parse fault about the whole text for anything else.
-/

namespace Reckoner
namespace Value

/-- The text before the first character that satisfies `p`, and the text after
it if there is such a character. -/
def cutAt (p : Char → Bool) (cs : List Char) : List Char × Option (List Char) :=
  match cs.dropWhile fun c => !p c with
  | [] => (cs, none)
  | _ :: rest => (cs.takeWhile fun c => !p c, some rest)

/-- An optional sign, and whether it is a minus. -/
def cutSign : List Char → Bool × List Char
  | '-' :: rest => (true, rest)
  | '+' :: rest => (false, rest)
  | cs => (false, cs)

/-- Whether a text consists of digits only; the empty text does. -/
def allDigits (cs : List Char) : Bool := cs.all Char.isDigit

/-- The mark that introduces a power of ten. -/
def isExponentMark (c : Char) : Bool := c == 'e' || c == 'E'

/-- The largest power of ten that a literal may ask for. -/
def literalExponentLimit : Nat := 100000

/-- The first magnitude beyond the positive numbers of a signed word of 64 bits. -/
def wordLimit : Nat := twoPow 63

/-- The exponent written after the mark.  One that does not fit a signed word of
64 bits is not read at all; one that is merely too large is refused as such. -/
def readExponent (cs : List Char) : Except ParseCause Int :=
  let (negative, digits) := cutSign cs
  if digits.isEmpty || !allDigits digits then .error .invalidNumber
  else
    let n := Numeral.value digits
    if wordLimit < n || (n == wordLimit && !negative) then .error .invalidNumber
    else if literalExponentLimit < n then .error .literalExponentTooLarge
    else .ok (if negative then -n else n)

/-- The value of a literal, or why there is none. -/
def literal? (cs : List Char) : Except ParseCause Value := do
  let (negative, body) := cutSign cs
  let (mantissa, exponent?) := cutAt isExponentMark body
  let (whole, fraction?) := cutAt (· == '.') mantissa
  let last := fraction?.getD whole
  if last.isEmpty || !allDigits last || !allDigits whole then .error .invalidNumber
  let exponent ← match exponent? with
    | none => .ok 0
    | some text => readExponent text
  let fraction := fraction?.getD []
  let magnitude := Numeral.value (whole ++ fraction)
  let m : Int := if negative then -(magnitude : Int) else magnitude
  match (fraction.length : Int) - exponent with
  | .ofNat scale => return scaled m scale
  | .negSucc excess => return integer (m * tenPow (excess + 1))

/-- The value of a literal; the fault of anything else is about the whole text. -/
def readLiteral (cs : List Char) : Except Fault Value :=
  (literal? cs).mapError fun cause => Fault.ofFragment cause cs

end Value
end Reckoner
