import Reckoner.Arity
import Reckoner.Text.Quoted
import Reckoner.Value.Basic

/-!
# Faults

A calculation fails in one of two ways.  An entry that cannot be read is a parse
fault, which carries the fragment of the entry that it is about; a calculation
that has no result is an arithmetic fault.  Both are kept as causes, and the
wording is one function of the cause.
-/

namespace Reckoner

/-- Why an entry, or a table of names, cannot be read. -/
inductive ParseCause where
  | invalidNumber
  | literalExponentTooLarge
  | unexpectedOperator
  | unexpectedClosing
  | commaOutsideCall
  | missingOperator
  | unclosedParenthesis
  | emptyExpression
  | missingLastOperand
  | adjacentOperands
  | operatorWithoutOperand
  | incompleteExpression
  | invalidExpression
  | tooTall (limit : Nat)
  | tooLong (length limit : Nat)
  | tooDeep (limit : Nat)
  | unknownFunction
  | unknownConstant
  | unknownToken
  | invalidName
  | duplicateConstant
  | duplicateFunction
  | wrongArgumentCount (expected : Arity) (received : Nat)
  /-- A cause that only the resolver of a foreign operand knows. -/
  | other (message : String)
  deriving DecidableEq, Repr

/-- Why a calculation has no result. -/
inductive ArithmeticCause where
  | divisionByZero
  | nonRealPower (base exponent : Value)
  | exponentTooLarge (exponent : Int) (limit : Nat)
  | nonPositiveLogarithm
  | exponentialOverflow
  | undefinedTangent
  | negativeSquareRoot
  /-- A division by zero that nothing guards: the calculation is broken off, and there is
  no message. -/
  | crash
  /-- A cause that only the function that failed knows. -/
  | other (message : String)
  deriving DecidableEq, Repr

/-- The message of a parse fault. -/
def ParseCause.message : ParseCause → String
  | invalidNumber => "nombre invalide"
  | literalExponentTooLarge => "exposant de littéral trop grand"
  | unexpectedOperator => "opérateur inattendu"
  | unexpectedClosing => "parenthèse fermante inattendue"
  | commaOutsideCall => "virgule hors d'un appel de fonction"
  | missingOperator => "opérateur manquant entre deux opérandes"
  | unclosedParenthesis => "parenthèse non fermée"
  | emptyExpression => "expression vide"
  | missingLastOperand => "expression incomplète (opérande manquant en fin)"
  | adjacentOperands => "deux opérandes adjacents"
  | operatorWithoutOperand => "opérateur sans opérande"
  | incompleteExpression => "expression incomplète"
  | invalidExpression => "expression invalide"
  | tooTall limit => s!"arbre trop haut (hauteur > {limit})"
  | tooLong length limit => s!"entrée trop longue ({length} > {limit} caractères)"
  | tooDeep limit => s!"imbrication trop profonde (> {limit})"
  | unknownFunction => "fonction inconnue"
  | unknownConstant => "constante inconnue"
  | unknownToken => "jeton inconnu"
  | invalidName => "nom invalide"
  | duplicateConstant => "constante déjà enregistrée"
  | duplicateFunction => "fonction déjà enregistrée"
  | wrongArgumentCount expected received =>
    s!"nombre d'arguments incorrect : {expected} attendu(s), {received} reçu(s)"
  | other message => message

/-- The message of an arithmetic fault. -/
def ArithmeticCause.message : ArithmeticCause → String
  | divisionByZero => "division par zéro"
  | nonRealPower base exponent => s!"puissance non réelle : ({base})^({exponent})"
  | exponentTooLarge exponent limit =>
    let magnitude := String.ofList (Numeral.signed exponent)
    s!"exposant trop grand (|{magnitude}| > {limit})"
  | nonPositiveLogarithm => "logarithme d'un nombre non positif"
  | exponentialOverflow => "dépassement de capacité (exponentielle)"
  | undefinedTangent => "tangente indéfinie"
  | negativeSquareRoot => "racine carrée d'un nombre négatif"
  | crash => ""
  | other message => message

/-- A failed calculation. -/
inductive Fault where
  /-- The entry does not read; `fragment` is the part of it at fault. -/
  | parse (cause : ParseCause) (fragment : String)
  /-- The calculation has no result. -/
  | arithmetic (cause : ArithmeticCause)
  deriving DecidableEq, Repr

namespace Fault

/-- The message of a fault, without its fragment. -/
def message : Fault → String
  | parse cause _ => cause.message
  | arithmetic cause => cause.message

/-- The whole text of a fault: its kind, its message and its quoted fragment. -/
def text : Fault → String
  | parse cause fragment =>
    let quoted := String.ofList (Text.quoted fragment.toList)
    s!"erreur d'analyse : {cause.message} (fragment: {quoted})"
  | arithmetic cause => s!"erreur arithmétique : {cause.message}"

instance : ToString Fault := ⟨text⟩

/-- Whether the entry, rather than the calculation, is at fault. -/
def isParse : Fault → Bool
  | parse _ _ => true
  | arithmetic _ => false

/-- The fault of dividing by zero. -/
def divisionByZero : Fault := arithmetic .divisionByZero

/-- A parse fault about a piece of text given as characters. -/
def ofFragment (cause : ParseCause) (fragment : List Char) : Fault :=
  parse cause (String.ofList fragment)

end Fault

/-- What evaluating something yields: a value or a fault. -/
abbrev Outcome := Except Fault Value

/-! ## Steps that succeed -/

theorem ok_of_bind_eq_ok {ε α β : Type} {x : Except ε α} {f : α → Except ε β} {b : β}
    (h : x >>= f = .ok b) : ∃ a, x = .ok a ∧ f a = .ok b := by
  cases x with
  | error e => cases h
  | ok a => exact ⟨a, rfl, h⟩

theorem ok_of_map_eq_ok {ε α β : Type} {x : Except ε α} {f : α → β} {b : β}
    (h : f <$> x = .ok b) : ∃ a, x = .ok a ∧ f a = b := by
  cases x with
  | error e => cases h
  | ok a => exact ⟨a, rfl, Except.ok.inj h⟩

end Reckoner
