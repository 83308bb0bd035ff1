import Mathlib
import Reckoner.Parser.Builder
import Reckoner.Proofs.Registry.Lookup

/-!
# The standard tables make a parser

A registry is refused if a name is no name or occurs twice.  The names of the standard tables
are neither, at any precision, so they can always be built (`ofTables_standard`), and a builder
that asks for both of them and for nothing else builds them at the precision that its options
have by then (`build_standard`).  Every standard function is found there
(`function?_standard`), and the two constants come in the order of their names
(`constants_standard`).
-/

namespace Reckoner
namespace Registry

/-! ## The standard tables -/

theorem names_functions : Standard.functions.map (·.name) = ["sin", "cos", "tan", "sqrt", "ln",
    "exp", "pow", "gcd", "hcf", "lcm", "abs", "neg", "min", "max"] := rfl

/-- The standard tables make the standard registry, at every precision. -/
theorem ofTables_standard (options : Options) :
    ofTables (Standard.constants options.precision) Standard.functions =
      .ok (standard options) := by
  have hconstants : (Standard.constants options.precision).map (·.name) = ["pi", "e"] := rfl
  refine ofTables_eq_ok ?_ ?_ ?_
  · rw [hconstants, names_functions]
    decide
  · rw [hconstants]
    decide
  · rw [names_functions]
    decide

/-- The constants of the standard registry, by name. -/
theorem constants_standard (options : Options) :
    (standard options).constants =
      [⟨"e", .approximate (FixedPoint.e options.precision) options.precision⟩,
       ⟨"pi", .approximate (FixedPoint.pi options.precision) options.precision⟩] := by
  have horder : ¬ "pi" ≤ "e" := by decide
  simp [standard, sortByName, Standard.constants, List.mergeSort,
    List.MergeSort.Internal.splitInTwo, horder]

/-- Every standard function is found by its own name. -/
theorem function?_standard (options : Options) {f : Function} (hf : f ∈ Standard.functions) :
    (standard options).function? f.name = some f := by
  have hnodup : (Standard.functions.map (·.name)).Nodup := by
    rw [names_functions]
    decide
  exact function?_of_mem (increasing_sortByName hnodup) ((perm_sortByName _ _).mem_iff.2 hf)

end Registry

/-- A builder that was only asked for the standard tables, whatever its options are. -/
theorem Builder.build_standard (options : Options) :
    ({ standardConstants := true, standardFunctions := true, options } : Builder).build =
      .ok ⟨.standard options, options⟩ := by
  simp only [build, if_true, List.nil_append, Registry.ofTables_standard]
  rfl

end Reckoner
