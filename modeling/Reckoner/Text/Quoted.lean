import Reckoner.Text.Unprintable

/-!
# Quoted texts

A text is quoted between double quotes.  The quote itself, the backslash and the
usual controls get a backslash and a letter, every other character that would not
show gets its code in braces, and all else stands for itself.
-/

namespace Reckoner
namespace Text

/-- A character inside a quoted text. -/
def escaped (c : Char) : List Char :=
  match c with
  | '"' => ['\\', '"']
  | '\\' => ['\\', '\\']
  | '\n' => ['\\', 'n']
  | '\r' => ['\\', 'r']
  | '\t' => ['\\', 't']
  | '\x00' => ['\\', '0']
  | c =>
    if ' ' ≤ c ∧ c ≤ '~' then [c]
    else if isUnprintable c then
      ['\\', 'u', '\x7b'] ++ Nat.toDigits 16 c.toNat ++ ['\x7d']
    else [c]

/-- The text between double quotes. -/
def quoted (cs : List Char) : List Char := '"' :: cs.flatMap escaped ++ ['"']

end Text
end Reckoner
