import Reckoner.Parser.Builder
import Reckoner.Report

/-!
# A session at the calculator

A session holds the entry being typed, the settings and the parser made from them,
the last result and the history of successful calculations, newest first.  The
parser is rebuilt when a setting it depends on changes, and the history is cut to
its last `historyLimit` calculations.
-/

namespace Reckoner

/-- What the user can set. -/
structure Settings where
  /-- Significant digits of inexact results, at least one. -/
  precision : Nat := 34
  /-- The policy for zero over zero. -/
  zeroOverZero : ZeroOverZero := .fault
  /-- Places of the decimal reading. -/
  places : Nat := 20
  deriving DecidableEq, Repr, Inhabited

/-- A successful calculation: the entry and the report on it. -/
structure Calculation where
  entry : String
  report : Report
  deriving DecidableEq, Repr

/-- The state of a session. -/
structure Session where
  parser : Parser := .standard
  settings : Settings := {}
  /-- The entry being typed. -/
  input : String := ""
  /-- The last result, or the fault of the last entry. -/
  current : Option (Except Fault Calculation) := none
  /-- Successful calculations, newest first. -/
  history : List Calculation := []
  /-- Whether the input asks to be typed into. -/
  wantsFocus : Bool := true

namespace Session

instance : Inhabited Session := ⟨{}⟩

/-- The largest number of calculations that are remembered. -/
def historyLimit : Nat := 50

/-! ## Settings -/

/-- The settings brought into their ranges. -/
def admissible (s : Settings) : Settings :=
  { s with precision := max s.precision 1, places := min s.places Report.maxPlaces }

/-- The standard parser for given settings. -/
def parserFor (s : Settings) : Except Fault Parser :=
  (({} : Builder).withStandard.withPrecision s.precision |>.withZeroOverZero s.zeroOverZero).build

/-- Changes the settings.  The parser is only rebuilt if it depends on the change; if
that fails, nothing changes. -/
def configure (s : Session) (settings : Settings) : Except Fault Session := do
  let settings := admissible settings
  let same := settings.precision = s.settings.precision ∧
    settings.zeroOverZero = s.settings.zeroOverZero
  let parser ← if same then .ok s.parser else parserFor settings
  return { s with parser, settings }

/-! ## Calculating -/

/-- Types a text in place of the entry. -/
def type (s : Session) (text : String) : Session := { s with input := text }

/-- Evaluates the entry, blanks around it left out; a blank entry is left alone. -/
def evaluate (s : Session) : Session :=
  let entry := String.ofList (Text.trim s.input.toList)
  if entry.isEmpty then s
  else
    match s.parser.report entry s.settings.places with
    | .ok report =>
      let calculation := ⟨entry, report⟩
      { s with
        current := some (.ok calculation)
        history := (calculation :: s.history).take historyLimit
        wantsFocus := true }
    | .error f => { s with current := some (.error f), wantsFocus := true }

/-! ## Editing -/

/-- Whether a name put after this text would run into what stands there. -/
def needsOperator (text : String) : Bool :=
  match text.toList.getLast? with
  | some c => c.isAlphanum || c == ')'
  | none => false

/-- Appends a name to the entry, after a multiplication sign where an operand has just
ended; a function gets its opening parenthesis. -/
def insertName (s : Session) (name : String) (isFunction : Bool) : Session :=
  { s with
    input := s.input ++ (if needsOperator s.input then " * " else "") ++ name
      ++ (if isFunction then "(" else "")
    wantsFocus := true }

/-- Takes an entry of the history up again; there may be no such entry. -/
def takeUp (s : Session) (i : Nat) : Session :=
  match s.history[i]? with
  | some calculation => { s with input := calculation.entry, wantsFocus := true }
  | none => s

/-- Clears the entry and the result. -/
def clear (s : Session) : Session := { s with input := "", current := none, wantsFocus := true }

/-- Forgets the history. -/
def forget (s : Session) : Session := { s with history := [] }

/-- Notes that the input has got the focus it asked for. -/
def focusGiven (s : Session) : Session := { s with wantsFocus := false }

end Session
end Reckoner
