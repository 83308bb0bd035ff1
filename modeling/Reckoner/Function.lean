import Reckoner.Options
import Reckoner.Traced

/-!
# Named functions

A function of the calculator is a name, an arity and a body.  The body may note
events; it is only run when the number of arguments is right.
-/

namespace Reckoner

/-- A named function on values. -/
structure Function where
  name : String
  arity : Arity
  /-- What the function computes, for arguments in the order in which they are
  written. -/
  body : Options → List Value → Traced Outcome

namespace Function

/-- The fault of a call with the wrong number of arguments. -/
def wrongCount (name : String) (arity : Arity) (received : Nat) : Fault :=
  .parse (.wrongArgumentCount arity received) name

/-- Runs the body, noting that it was run. -/
def run (f : Function) (options : Options) (args : List Value) : Traced Outcome := do
  Traced.note (.called f.name)
  f.body options args

/-- Calls a function, unless the number of arguments is wrong. -/
def call (f : Function) (options : Options) (args : List Value) : Traced Outcome :=
  if f.arity.accepts args.length then f.run options args
  else pure (.error (wrongCount f.name f.arity args.length))

/-! ## Making functions -/

/-- A function of one argument. -/
def unary (name : String) (f : Options → Value → Outcome) : Function where
  name := name
  arity := .one
  body options args :=
    match args with
    | x :: _ => pure (f options x)
    | [] => pure (.error (wrongCount name .one 0))

/-- A function of two arguments. -/
def binary (name : String) (f : Options → Value → Value → Traced Outcome) : Function where
  name := name
  arity := .two
  body options args :=
    match args with
    | x :: y :: _ => f options x y
    | args => pure (.error (wrongCount name .two args.length))

/-- A function of one argument or more. -/
def nonempty (name : String) (f : Value → List Value → Value) : Function where
  name := name
  arity := .atLeastOne
  body _ args :=
    match args with
    | x :: rest => pure (.ok (f x rest))
    | [] => pure (.error (wrongCount name .atLeastOne 0))

end Function

/-- A named value. -/
structure Constant where
  name : String
  value : Value
  deriving DecidableEq, Repr

end Reckoner
