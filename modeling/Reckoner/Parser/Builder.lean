import Reckoner.Parser.Basic

/-!
# Building a parser

A builder collects constants, functions and options, and whether the standard tables
are wanted.  The standard constants are computed when the parser is built, at the
precision that the options have by then; the standard tables come after the entries
that were added by hand.
-/

namespace Reckoner

/-- What a parser is to be made of. -/
structure Builder where
  constants : List Constant := []
  functions : List Function := []
  standardConstants : Bool := false
  standardFunctions : Bool := false
  options : Options := {}

namespace Builder

/-- Adds a constant. -/
def addConstant (b : Builder) (c : Constant) : Builder :=
  { b with constants := b.constants ++ [c] }

/-- Adds a function. -/
def addFunction (b : Builder) (f : Function) : Builder :=
  { b with functions := b.functions ++ [f] }

/-- Asks for the standard constants. -/
def withStandardConstants (b : Builder) : Builder := { b with standardConstants := true }

/-- Asks for the standard functions. -/
def withStandardFunctions (b : Builder) : Builder := { b with standardFunctions := true }

/-- Asks for both standard tables. -/
def withStandard (b : Builder) : Builder := b.withStandardFunctions.withStandardConstants

/-- Replaces the options. -/
def withOptions (b : Builder) (options : Options) : Builder := { b with options }

/-- Sets the precision, which is at least one. -/
def withPrecision (b : Builder) (precision : Nat) : Builder :=
  { b with options := { b.options with precision := max precision 1 } }

/-- Sets the policy for zero over zero. -/
def withZeroOverZero (b : Builder) (policy : ZeroOverZero) : Builder :=
  { b with options := { b.options with zeroOverZero := policy } }

/-- Replaces the limits. -/
def withLimits (b : Builder) (limits : Limits) : Builder :=
  { b with options := { b.options with limits := limits } }

/-- The parser, unless a name is invalid or occurs twice. -/
def build (b : Builder) : Except Fault Parser := do
  let constants := if b.standardConstants then Standard.constants b.options.precision else []
  let functions := if b.standardFunctions then Standard.functions else []
  let registry ← Registry.ofTables (b.constants ++ constants) (b.functions ++ functions)
  return ⟨registry, b.options⟩

/-- The parser; success is noted. -/
def buildTraced (b : Builder) : Traced (Except Fault Parser) :=
  let result := b.build
  ⟨result, match result with
    | .ok p =>
      [.built p.registry.constants.length p.registry.functions.length p.options.precision]
    | .error _ => []⟩

end Builder
end Reckoner
