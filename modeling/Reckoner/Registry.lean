import Reckoner.Standard

/-!
# The registry of names

The constants and functions that an expression may use, in two tables sorted by
name, in which they are found by binary search.  Within a table every name is valid
and occurs once, so a look-up has at most one answer; a constant and a function may
share a name.
-/

namespace Reckoner

/-- Two tables of names. -/
structure Registry where
  constants : List Constant
  functions : List Function

namespace Registry

/-! ## Names -/

/-- The characters with which a name begins: ASCII letters and the underscore. -/
def isNameStart (c : Char) : Bool := c.isAlpha || c == '_'

/-- The characters of a name after the first: digits as well. -/
def isNamePart (c : Char) : Bool := isNameStart c || c.isDigit

/-- Whether a text is a name. -/
def isName : List Char → Bool
  | [] => false
  | c :: rest => isNameStart c && rest.all isNamePart

/-- The list sorted by a name, entries with the same name in the order given. -/
def sortByName {α : Type} (name : α → String) (entries : List α) : List α :=
  entries.mergeSort fun a b => name a ≤ name b

/-- The first name that the next entry repeats; in a sorted list, the first name that
occurs twice. -/
def repeated? : List String → Option String
  | a :: b :: rest => if a = b then some a else repeated? (b :: rest)
  | _ => none

/-! ## Making a registry -/

/-- The registry of two tables in any order.  Names are checked first, constants
before functions, then repetitions in the same order. -/
def ofTables (constants : List Constant) (functions : List Function) : Except Fault Registry :=
  let names := constants.map (·.name) ++ functions.map (·.name)
  match names.find? fun name => !isName name.toList with
  | some name => .error (.parse .invalidName name)
  | none =>
    let constants := sortByName (·.name) constants
    let functions := sortByName (·.name) functions
    match repeated? (constants.map (·.name)), repeated? (functions.map (·.name)) with
    | some name, _ => .error (.parse .duplicateConstant name)
    | none, some name => .error (.parse .duplicateFunction name)
    | none, none => .ok ⟨constants, functions⟩

/-- The standard constants and functions. -/
def standard (options : Options) : Registry where
  constants := sortByName (·.name) (Standard.constants options.precision)
  functions := sortByName (·.name) Standard.functions

/-! ## Look-up -/

/-- Binary search.  `order` tells of an entry on which side of the wanted place it stands; where
a list is not sorted for it, an entry may be missed. -/
def search {α : Type} (order : α → Ordering) (entries : List α) : Option α :=
  match _h : entries.drop (entries.length / 2) with
  | [] => none
  | middle :: above =>
    match order middle with
    | .eq => some middle
    | .lt => search order above
    | .gt => search order (entries.take (entries.length / 2))
termination_by entries.length
decreasing_by
  all_goals
    have hlength := congrArg List.length _h
    simp only [List.length_drop, List.length_cons, List.length_take] at hlength ⊢
    omega

/-- The constant of a name. -/
def constant? (r : Registry) (name : String) : Option Constant :=
  search (fun c => compare c.name name) r.constants

/-- The function of a name. -/
def function? (r : Registry) (name : String) : Option Function :=
  search (fun f => compare f.name name) r.functions

/-- What a search finds is an entry, and it is in the wanted place. -/
theorem of_search_eq_some {α : Type} {order : α → Ordering} {entries : List α} {x : α}
    (h : search order entries = some x) : x ∈ entries ∧ order x = .eq := by
  fun_induction search order entries with
  | case1 entries hdrop => cases h
  | case2 entries middle above hdrop horder =>
    cases h
    exact ⟨List.mem_of_mem_drop (hdrop ▸ List.mem_cons_self), horder⟩
  | case3 entries middle above hdrop horder ih =>
    exact ⟨List.mem_of_mem_drop (hdrop ▸ List.mem_cons_of_mem _ (ih h).1), (ih h).2⟩
  | case4 entries middle above hdrop horder ih =>
    exact ⟨List.mem_of_mem_take (ih h).1, (ih h).2⟩

theorem of_constant?_eq_some {r : Registry} {name : String} {c : Constant}
    (h : r.constant? name = some c) : c ∈ r.constants ∧ c.name = name :=
  (of_search_eq_some h).imp_right Std.LawfulEqCmp.eq_of_compare

theorem of_function?_eq_some {r : Registry} {name : String} {f : Function}
    (h : r.function? name = some f) : f ∈ r.functions ∧ f.name = name :=
  (of_search_eq_some h).imp_right Std.LawfulEqCmp.eq_of_compare

end Registry
end Reckoner
