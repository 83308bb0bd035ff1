import Reckoner.Operator

/-!
# Tokens

A line of an expression is a flat list of operands and operators.  A parenthesised
group is a single operand that carries its inside as raw text, and so is a call,
with one raw text for each argument: they are read later, each on its own.  The
sign in front of an operand belongs to it.
-/

namespace Reckoner

/-- An operand, with its sign. -/
inductive Operand where
  /-- A number or a name; a minus sign is the first character. -/
  | atom (text : List Char)
  /-- A parenthesised expression, unread. -/
  | group (negative : Bool) (inside : List Char)
  /-- A call with its unread arguments. -/
  | call (negative : Bool) (name : List Char) (args : List (List Char))
  deriving DecidableEq, Repr

/-- An operand or an operator. -/
inductive Token where
  | operand (o : Operand)
  | operator (op : Operator)
  deriving DecidableEq, Repr

/-! ## Writing tokens -/

/-- Texts put one after the other with a separator between them. -/
def joinTexts (separator : List Char) : List (List Char) → List Char
  | [] => []
  | [t] => t
  | t :: rest => t ++ separator ++ joinTexts separator rest

/-- A minus sign, or nothing. -/
def signChars (negative : Bool) : List Char := if negative then ['-'] else []

/-- An operand as it is written. -/
def Operand.chars : Operand → List Char
  | atom text => text
  | group negative inside => signChars negative ++ '(' :: inside ++ [')']
  | call negative name args =>
    signChars negative ++ name ++ '(' :: joinTexts [',', ' '] args ++ [')']

/-- A token as it is written. -/
def Token.chars : Token → List Char
  | operand o => o.chars
  | operator op => [op.symbol]

/-- A line of tokens, with a space between any two. -/
def Token.lineChars (tokens : List Token) : List Char := joinTexts [' '] (tokens.map Token.chars)

/-- A line of tokens as text. -/
def Token.line (tokens : List Token) : String := String.ofList (lineChars tokens)

end Reckoner
