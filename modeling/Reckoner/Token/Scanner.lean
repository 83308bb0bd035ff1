import Reckoner.Fault
import Reckoner.Text.Blank
import Reckoner.Token.Arguments
import Reckoner.Token.Basic
import Reckoner.Value.Literal

/-!
# Reading tokens

A text is read from left to right.  At every place the reader expects either an
operand, perhaps with a sign already read, or an operator; `lexeme` reads one item
and says what is expected next, and `scan` repeats it to the end of the text.

* A plus or minus where an operand is expected is its sign, and there is at most
  one.
* A number keeps the sign of its exponent: `1.5e-3` is one atom.
* A name that is followed by an opening parenthesis, perhaps after blanks, is a
  call; a number is not.
* What is inside parentheses is only searched for the closing one.
-/

namespace Reckoner
namespace Scanner

/-! ## Groups -/

/-- How many characters stand before the parenthesis that closes a group of which
the opening one has been read.  `depth` parentheses were opened inside it, and `n`
characters have been passed. -/
def closing? : Nat → Nat → List Char → Option Nat
  | _, _, [] => none
  | depth, n, '(' :: rest => closing? (depth + 1) (n + 1) rest
  | 0, n, ')' :: _ => some n
  | depth + 1, n, ')' :: rest => closing? depth (n + 1) rest
  | depth, n, _ :: rest => closing? depth (n + 1) rest

/-- The inside of a group of which the opening parenthesis has been read, unless it
is never closed. -/
def inside? (cs : List Char) : Option (List Char) := (closing? 0 0 cs).map cs.take

/-! ## Atoms -/

/-- The characters at which an atom ends. -/
def isDelimiter (c : Char) : Bool :=
  Text.isBlank c || (Operator.ofSymbol? c).isSome || c == '(' || c == ')' || c == ','

/-- The characters with which a number begins. -/
def startsNumber (c : Char) : Bool := c.isDigit || c == '.'

/-- Whether an atom goes on with `c`, which stands between `previous` and `rest`: any
character that is no delimiter, and in a number the sign between an exponent mark
and a digit. -/
def continuesAtom (numeric : Bool) (previous c : Char) (rest : List Char) : Bool :=
  !isDelimiter c ||
    (numeric && Value.isExponentMark previous && (c == '+' || c == '-') &&
      rest.head?.any Char.isDigit)

/-- How many further characters belong to an atom; `n` have been passed. -/
def atomLength (numeric : Bool) : Char → Nat → List Char → Nat
  | _, n, [] => n
  | previous, n, c :: rest =>
    if continuesAtom numeric previous c rest then atomLength numeric c (n + 1) rest else n

/-! ## One lexeme -/

/-- What may come next. -/
inductive Expecting where
  /-- An operand, after a sign if one has been read; the sign is whether it is
  a minus. -/
  | operand (sign : Option Bool)
  /-- An operator, or the end of the text. -/
  | operator
  deriving DecidableEq, Repr

/-- One item of the text: the token it gives, if any, what is expected after it, and
how many characters it takes beyond its first. -/
structure Lexeme where
  token : Option Token
  next : Expecting
  extra : Nat
  deriving DecidableEq, Repr

/-- The item that is an operand. -/
def Lexeme.ofOperand (o : Operand) (extra : Nat) : Lexeme := ⟨some (.operand o), .operator, extra⟩

/-- Reads the operand that begins with `c`. -/
def operand (negative : Bool) (c : Char) (rest : List Char) : Except Fault Lexeme :=
  let unclosed : Except Fault Lexeme := .error (.ofFragment .unclosedParenthesis (c :: rest))
  if c = '(' then
    match inside? rest with
    | none => unclosed
    | some inside => .ok (.ofOperand (.group negative inside) (inside.length + 1))
  else
    let numeric := startsNumber c
    let n := atomLength numeric c 0 rest
    let text := c :: rest.take n
    let after := rest.drop n
    let opening := after.dropWhile Text.isBlank
    if opening.head? = some '(' ∧ !numeric then
      match inside? opening.tail with
      | none => unclosed
      | some inside =>
        .ok (.ofOperand (.call negative text (Arguments.split inside))
          (n + (after.takeWhile Text.isBlank).length + 1 + inside.length + 1))
    else .ok (.ofOperand (.atom (signChars negative ++ text)) n)

/-- Reads the item that begins with `c`.  `behind` is the text before it, last
character first. -/
def lexeme (expecting : Expecting) (behind : List Char) (c : Char) (rest : List Char) :
    Except Fault Lexeme :=
  if Text.isBlank c then .ok ⟨none, expecting, 0⟩
  else
    match Operator.ofSymbol? c, expecting with
    | some op, .operator => .ok ⟨some (.operator op), .operand none, 0⟩
    | some .add, .operand none => .ok ⟨none, .operand (some false), 0⟩
    | some .sub, .operand none => .ok ⟨none, .operand (some true), 0⟩
    | some _, .operand _ =>
      .error (.ofFragment .unexpectedOperator (behind.head?.toList ++ [c]))
    | none, _ =>
      if c = ')' then .error (.ofFragment .unexpectedClosing (c :: behind).reverse)
      else if c = ',' then .error (.ofFragment .commaOutsideCall (c :: behind).reverse)
      else
        match expecting with
        | .operator => .error (.ofFragment .missingOperator (c :: rest))
        | .operand sign => operand (sign.getD false) c rest

/-! ## Whole texts -/

/-- The fault of a text that ends where an operand is expected. -/
def endFault (text : List Char) : Fault :=
  .ofFragment (if text.all Text.isBlank then .emptyExpression else .missingLastOperand) text

/-- Reads the rest of a text. -/
def scanFrom (expecting : Expecting) (behind : List Char) : List Char → Except Fault (List Token)
  | [] =>
    match expecting with
    | .operator => .ok []
    | .operand _ => .error (endFault behind.reverse)
  | c :: rest => do
    let item ← lexeme expecting behind c rest
    let tokens ← scanFrom item.next ((rest.take item.extra).reverse ++ c :: behind)
      (rest.drop item.extra)
    return item.token.toList ++ tokens
termination_by cs => cs.length
decreasing_by simp only [List.length_drop, List.length_cons]; omega

/-- The tokens of a text. -/
def scan (text : List Char) : Except Fault (List Token) := scanFrom (.operand none) [] text

end Scanner
end Reckoner
