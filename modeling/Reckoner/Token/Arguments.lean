import Reckoner.Text.Blank

/-!
# Splitting the arguments of a call

The inside of a call is cut at the commas that are not inside parentheses.  The
pieces lose their outer blanks, and blank pieces are dropped, so that a call
without arguments has an empty list of them.
-/

namespace Reckoner
namespace Arguments

/-- The pieces between the commas at depth zero.  `current` holds the characters of
the piece being read, last one first.  The depth may go below zero where a
parenthesis closes that was never opened; commas there do not cut. -/
def pieces : Int → List Char → List Char → List (List Char)
  | _, current, [] => [current.reverse]
  | depth, current, c :: rest =>
    if c = ',' ∧ depth = 0 then current.reverse :: pieces depth [] rest
    else
      let depth := if c = '(' then depth + 1 else if c = ')' then depth - 1 else depth
      pieces depth (c :: current) rest

/-- The arguments in the inside of a call. -/
def split (inside : List Char) : List (List Char) :=
  ((pieces 0 [] inside).map Text.trim).filter fun piece => !piece.isEmpty

end Arguments
end Reckoner
