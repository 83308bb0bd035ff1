import Reckoner.Fault
import Reckoner.Operator

/-!
# Events

What a calculation notes while it runs.  An event holds the values themselves; its
`record`, the line of a log, is only written when somebody asks for it.  A call of
a function is an event too, but it leaves no record: it is there so that one can
say which functions ran, and how often.
-/

namespace Reckoner

/-- A step of a calculation worth noting. -/
inductive Event where
  /-- A parser was put together from its tables. -/
  | built (constants functions precision : Nat)
  /-- An entry was read into a tree. -/
  | parsed (entry : String) (height leaves : Nat)
  /-- The tree of an entry was evaluated, with or without success. -/
  | evaluated (entry : String) (outcome : Outcome)
  /-- A report was made of the value of an entry. -/
  | reported (entry : String) (value : Value)
  /-- A rule settled an operation without carrying it out. -/
  | shortcut (op : Operator) (result : Value)
  /-- Two finite expansions gave an infinite one. -/
  | becamePeriodic (op : Operator) (left right result : Value)
  /-- A power with a fractional exponent took the exact root. -/
  | tookExactRoot (base exponent : Value)
  /-- The body of a function was run. -/
  | called (function : String)

/-- How important a record is. -/
inductive Level where
  | debug
  | trace
  deriving DecidableEq, Repr

/-- The name of a level. -/
def Level.name : Level → String
  | debug => "DEBUG"
  | trace => "TRACE"

/-- A line of a log: its level and its named fields, all of them text. -/
structure Record where
  level : Level
  fields : List (String × String)
  deriving DecidableEq, Repr

namespace Event

/-! ## Values and faults in full -/

/-- A text between double quotes. -/
def quote (s : String) : String := String.ofList (Text.quoted s.toList)

/-- A number in a record. -/
def numeral (n : Int) : String := String.ofList (Numeral.signed n)

/-- A value with its representation spelled out. -/
def describeValue : Value → String
  | .integer n => "Entier(" ++ numeral n ++ ")"
  | .decimal d =>
    "Decimal(Decimal \x7b mantisse: " ++ numeral d.mantissa ++ ", echelle: " ++ numeral d.scale
      ++ " \x7d)"
  | .ratio q => "Ratio(Ratio \x7b num: " ++ numeral q.num ++ ", den: " ++ numeral q.den ++ " \x7d)"

/-- An outcome with its parts spelled out. -/
def describeOutcome : Outcome → String
  | .ok v => "Ok(" ++ describeValue v ++ ")"
  | .error (.arithmetic cause) => "Err(Arithmetique(" ++ quote cause.message ++ "))"
  | .error (.parse cause fragment) =>
    "Err(Analyse \x7b message: " ++ quote cause.message ++ ", fragment: " ++ quote fragment
      ++ " \x7d)"

/-! ## Records -/

/-- The record that an event leaves, if it leaves one. -/
def record? : Event → Option Record
  | built constants functions precision =>
    some ⟨.debug,
      [("message", "parseur construit"), ("constantes", numeral constants),
        ("fonctions", numeral functions), ("precision", numeral precision)]⟩
  | parsed entry height leaves =>
    some ⟨.debug,
      [("message", "expression analysée"), ("entree", entry), ("hauteur", numeral height),
        ("longueur_chaine", numeral leaves)]⟩
  | evaluated entry outcome =>
    some ⟨.debug,
      [("message", "expression évaluée"), ("entree", entry),
        ("resultat", describeOutcome outcome)]⟩
  | reported entry value =>
    some ⟨.debug,
      [("message", "pipeline terminé"), ("entree", entry), ("exact", value.text),
        ("nature", value.nature.name)]⟩
  | shortcut op result =>
    some ⟨.trace,
      [("message", "court-circuit"), ("op", toString op), ("resultat", result.text)]⟩
  | becamePeriodic op left right result =>
    some ⟨.trace,
      [("message", "développement infini : passage en rationnel"), ("op", toString op),
        ("a", left.text), ("b", right.text), ("resultat", result.text)]⟩
  | tookExactRoot base exponent =>
    some ⟨.trace, [("message", "racine exacte"), ("a", base.text), ("b", exponent.text)]⟩
  | called _ => none

end Event
end Reckoner
