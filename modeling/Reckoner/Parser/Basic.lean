import Reckoner.Expr.Evaluation
import Reckoner.Expr.Postfix
import Reckoner.Registry
import Reckoner.Token.Scanner

/-!
# Parsing and evaluating entries

A parser is a registry of names with options.  It reads a text as a line of tokens,
groups the line, and reads every group and every argument of a call in the same way,
one level deeper.  The levels are bounded by the depth limit, the tree by the height
limit and the text by the length limit.  There is no partial success: a text has a
tree or a fault.
-/

namespace Reckoner

/-- The names an entry may use, and how it is calculated. -/
structure Parser where
  registry : Registry
  options : Options

namespace Parser

/-- The standard parser. -/
def standard : Parser := ⟨.standard {}, {}⟩

instance : Inhabited Parser := ⟨standard⟩

/-! ## Operands -/

/-- A number with its sign, or a constant. -/
def parseAtom (p : Parser) (text : List Char) : Except Fault Expr :=
  let (negative, body) := match text with
    | '-' :: body => (true, body)
    | text => (false, text)
  if body.head?.any Scanner.startsNumber then .literal <$> Value.readLiteral text
  else if Registry.isName body then
    match p.registry.constant? (String.ofList body) with
    | some c => .ok ((Expr.constant c.name c.value).withSign p.options negative)
    | none => .error (.ofFragment .unknownConstant body)
  else .error (.ofFragment .unknownToken text)

/-- A call, given how an argument is read.  The function and the number of arguments
are checked before any argument is read, the height after the sign is put on. -/
def parseCall (p : Parser) (inside : List Char → Except Fault Expr) (negative : Bool)
    (name : List Char) (args : List (List Char)) : Except Fault Expr :=
  match p.registry.function? (String.ofList name) with
  | none => .error (.ofFragment .unknownFunction name)
  | some f =>
    if !f.arity.accepts args.length then
      .error (Function.wrongCount f.name f.arity args.length)
    else do
      let args ← args.mapM inside
      let e := (Expr.call p.options f args).withSign p.options negative
      if p.options.limits.height < e.height then .error (Postfix.tooTall p.options name)
      else .ok e

/-- An operand, given how the inside of parentheses is read. -/
def parseOperand (p : Parser) (inside : List Char → Except Fault Expr) :
    Operand → Except Fault Expr
  | .atom text => p.parseAtom text
  | .group negative text => Expr.withSign p.options negative <$> inside text
  | .call negative name args => p.parseCall inside negative name args

/-! ## Texts -/

/-- The fault of an entry with too many levels of parentheses. -/
def tooDeep (p : Parser) (text : List Char) : Fault :=
  .ofFragment (.tooDeep p.options.limits.depth) (text.take 32)

/-- The tree of a text, with a number of levels that may still be opened. -/
def parseLevel (p : Parser) : Nat → List Char → Except Fault Expr
  | 0, text => .error (p.tooDeep text)
  | levels + 1, text => do
    let tokens ← Scanner.scan text
    let line ← Postfix.ofTokens tokens
    Postfix.build p.options (p.parseOperand (p.parseLevel levels)) line

/-- The tree of an entry. -/
def parse (p : Parser) (entry : String) : Except Fault Expr :=
  let text := entry.toList
  let limit := p.options.limits.length
  if limit < text.length then
    .error (.ofFragment (.tooLong text.length limit) (text.take 32))
  else p.parseLevel (p.options.limits.depth + 1) text

/-- The tree of an entry; success is noted. -/
def parseTraced (p : Parser) (entry : String) : Traced (Except Fault Expr) :=
  let result := p.parse entry
  ⟨result, match result with
    | .ok e => [.parsed entry e.height e.leaves]
    | .error _ => []⟩

/-- The value of an entry; the outcome is noted once the entry has been read. -/
def evaluateTraced (p : Parser) (entry : String) : Traced Outcome := do
  match ← p.parseTraced entry with
  | .error f => return .error f
  | .ok e =>
    let outcome ← e.outcome
    Traced.note (.evaluated entry outcome)
    return outcome

/-- The value of an entry. -/
def evaluate (p : Parser) (entry : String) : Outcome := (p.evaluateTraced entry).value

end Parser
end Reckoner
