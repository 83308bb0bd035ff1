import Reckoner.Parser.Basic

/-!
# Reports

The full answer to an entry: its exact value, a decimal reading of it, and how it
was found, from the tokens of the entry over their postfix order to the tree.
-/

namespace Reckoner

/-- How a result was found. -/
structure Derivation where
  /-- The tokens of the entry. -/
  tokens : String
  /-- The same tokens in postfix order. -/
  postfixLine : String
  /-- The tree. -/
  tree : String
  /-- How the result is written. -/
  nature : Nature
  /-- A sentence about the result. -/
  note : String
  deriving DecidableEq, Repr

/-- The answer to an entry. -/
structure Report where
  exact : String
  reading : String
  derivation : Derivation
  deriving DecidableEq, Repr

namespace Report

/-- The largest number of places of a reading. -/
def maxPlaces : Nat := 200

/-- The tallest tree that is written out. -/
def maxTreeHeight : Nat := 256

/-- The tree as text, or its height if it is too tall to be written out. -/
def treeText (e : Expr) : String :=
  if e.height ≤ maxTreeHeight then e.text
  else s!"(arbre de hauteur {e.height}, non affiché)"

/-- What a report says about a result of some nature. -/
def remark : Nature → String
  | .ratio => "Développement décimal infini : résultat gardé en fraction exacte."
  | .integer | .decimal => "Résultat exact."

/-- The sentence about the result. -/
def note (nature : Nature) : String :=
  "Pipeline: jetons → RPN → arbre → évaluation (raccourcis 0/1/-1) → EXACT → lecture. "
    ++ remark nature

/-- The report on a value, with a reading of at most `maxPlaces` places. -/
def ofValue (tokens line : List Token) (e : Expr) (v : Value) (places : Nat) : Report where
  exact := v.text
  reading := String.ofList (v.reading (min places maxPlaces))
  derivation :=
    { tokens := Token.line tokens
      postfixLine := Token.line line
      tree := treeText e
      nature := v.nature
      note := note v.nature }

end Report

namespace Parser

/-- The report on an entry, blanks around it left out; success is noted. -/
def reportTraced (p : Parser) (entry : String) (places : Nat) : Traced (Except Fault Report) := do
  let text := Text.trim entry.toList
  let entry := String.ofList text
  match ← p.parseTraced entry with
  | .error f => return .error f
  | .ok e =>
    match do let tokens ← Scanner.scan text; return (tokens, ← Postfix.ofTokens tokens) with
    | .error f => return .error f
    | .ok (tokens, line) =>
      match ← e.outcome with
      | .error f => return .error f
      | .ok v =>
        Traced.note (.reported entry v)
        return .ok (.ofValue tokens line e v places)

/-- The report on an entry. -/
def report (p : Parser) (entry : String) (places : Nat) : Except Fault Report :=
  (p.reportTraced entry places).value

end Parser
end Reckoner
