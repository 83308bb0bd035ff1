import Reckoner.Expr.Basic

/-!
# Postfix lines

A line of operands and operators is grouped in two steps.  `Postfix.ofTokens` moves
every operator behind its operands, by priority and associativity; `Postfix.build`
then runs the line as a stack program that leaves the tree.  What an operand stands
for is decided by the caller, operand by operand from left to right.
-/

namespace Reckoner
namespace Postfix

/-! ## Moving operators behind their operands -/

/-- Whether a waiting operator takes its operands before `op` does: it binds tighter,
or equally tight and `op` groups to the left. -/
def precedes (waiting op : Operator) : Bool :=
  op.priority < waiting.priority ||
    (waiting.priority == op.priority && !op.isRightAssociative)

/-- Puts the rest of a line in postfix order.  `waiting` holds the operators whose
right operand is not complete, the last one first; the flag says whether an operand
must come next. -/
def arrange : Bool → List Operator → List Token → Except ParseCause (List Token)
  | true, _, [] => .error .incompleteExpression
  | false, waiting, [] => .ok (waiting.map .operator)
  | true, waiting, .operand o :: rest => (.operand o :: ·) <$> arrange false waiting rest
  | false, _, .operand _ :: _ => .error .adjacentOperands
  | true, _, .operator _ :: _ => .error .operatorWithoutOperand
  | false, waiting, .operator op :: rest =>
    let done := waiting.takeWhile (precedes · op)
    (done.map .operator ++ ·) <$> arrange true (op :: waiting.dropWhile (precedes · op)) rest

/-- A line in postfix order; operands and operators must alternate. -/
def ofTokens (tokens : List Token) : Except Fault (List Token) :=
  (arrange true [] tokens).mapError fun cause => .ofFragment cause (Token.lineChars tokens)

/-! ## Building the tree -/

/-- The fault of an expression that is too tall, about the beginning of a text. -/
def tooTall (options : Options) (text : List Char) : Fault :=
  .ofFragment (.tooTall options.limits.height) (text.take 64)

/-- The fault of a line that is not in postfix order. -/
def invalid (line : List Token) : Fault := .ofFragment .invalidExpression (Token.lineChars line)

section Build

variable {m : Type → Type} [Monad m] [MonadExceptOf Fault m]

/-- One step of the stack program: an operand is pushed, an operator takes the two
topmost trees.  A tree over the limit is a fault about the whole line. -/
def step (options : Options) (resolve : Operand → m Expr) (line : List Token)
    (stack : List Expr) : Token → m (List Expr)
  | .operand o => do return (← resolve o) :: stack
  | .operator op =>
    match stack with
    | right :: left :: stack =>
      let e := Expr.binary options op left right
      if options.limits.height < e.height then
        throwThe Fault (tooTall options (Token.lineChars line))
      else pure (e :: stack)
    | _ => throwThe Fault (invalid line)

/-- The tree of a postfix line. -/
def build (options : Options) (resolve : Operand → m Expr) (line : List Token) : m Expr := do
  match ← line.foldlM (step options resolve line) [] with
  | [e] => pure e
  | _ => throwThe Fault (invalid line)

end Build

end Postfix
end Reckoner
