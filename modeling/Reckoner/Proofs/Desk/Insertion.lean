import Mathlib
import Reckoner.Desk.Session
import Reckoner.Proofs.Evaluation.Tables
import Reckoner.Proofs.Grammar.Appending

/-!
# Names that are put behind an entry

A name that is picked from the registry is put behind the entry, after a multiplication sign if
the last character of the entry is a letter, a digit or a closing parenthesis.  An entry that is
complete, that is, one that is scanned, can also end with a blank, or with another character of an
atom, such as the underscore of a name or the point of `2.`:

* behind a letter, a digit or a closing parenthesis the entry stays complete, and the name becomes
  a factor;
* behind a blank the operator is missing, and the entry is complete no more;
* behind any other character the name is glued to the atom before it.

`insertName_cases` says so for every entry and every name, and that behind an operator, an opening
parenthesis or a comma, or in an empty entry, the name stands without an operator.
-/

namespace Reckoner
namespace Session

open Grammar Scanner

/-! ## The last character -/

/-- The characters behind which a name gets an operator. -/
def endsOperand (c : Char) : Bool := c.isAlphanum || c == ')'

theorem needsOperator_eq (text : String) :
    needsOperator text = text.toList.getLast?.any endsOperand := by
  rw [needsOperator]
  cases text.toList.getLast? <;> rfl

theorem isNamePart_of_isAlphanum {c : Char} (h : c.isAlphanum = true) :
    Registry.isNamePart c = true := by
  rw [Char.isAlphanum, Bool.or_eq_true] at h
  rw [Registry.isNamePart, Registry.isNameStart]
  rcases h with h | h <;> simp [h]

/-- Neither a blank nor an operator nor an opening parenthesis nor a comma ends an operand. -/
theorem endsOperand_eq_false {c : Char} (h : isDelimiter c = true) (hclosing : c ≠ ')') :
    endsOperand c = false := by
  rw [endsOperand, Bool.or_eq_false_iff]
  refine ⟨?_, by simpa using hclosing⟩
  by_contra halphanum
  rw [Bool.not_eq_false] at halphanum
  rw [not_isDelimiter_of_isNamePart (isNamePart_of_isAlphanum halphanum)] at h
  cases h

theorem endsOperand_of_isBlank {c : Char} (h : Text.isBlank c = true) : endsOperand c = false := by
  refine endsOperand_eq_false (by simp [isDelimiter, h]) ?_
  rintro rfl
  exact absurd h (by decide)

theorem getLast?_trimEnd {text : List Char} {c : Char} (h : text.getLast? = some c)
    (hblank : Text.isBlank c = false) : (Text.trimEnd text).getLast? = some c := by
  obtain ⟨rest, rfl⟩ := List.getLast?_eq_some_iff.1 h
  rw [Text.trimEnd, Text.trimStart, List.reverse_concat,
    List.dropWhile_cons_of_neg (by simp [hblank]), List.reverse_cons, List.getLast?_concat]

/-- In an entry that is empty, or ends, but for blanks, with an operator, an opening parenthesis
or a comma, no operand has ended. -/
theorem needsOperator_eq_false {text : String} (h : ∀ c ∈ (Text.trimEnd text.toList).getLast?,
    (Operator.ofSymbol? c).isSome = true ∨ c = '(' ∨ c = ',') : needsOperator text = false := by
  rw [needsOperator_eq]
  cases hc : text.toList.getLast? with
  | none => rfl
  | some c =>
    show endsOperand c = false
    cases hblank : Text.isBlank c with
    | true => exact endsOperand_of_isBlank hblank
    | false =>
      rcases h c (getLast?_trimEnd hc hblank) with hop | rfl | rfl
      · refine endsOperand_eq_false (by simp [isDelimiter, hop]) ?_
        rintro rfl
        exact absurd hop (by decide)
      · decide
      · decide

/-- An entry that is scanned has a last character, and it decides. -/
theorem exists_last {text : String} {tokens : List Token} (h : scan text.toList = .ok tokens) :
    ∃ c, text.toList.getLast? = some c ∧ needsOperator text = endsOperand c := by
  have hne : text.toList ≠ [] := by
    intro hempty
    rw [hempty, scan, scanFrom_operand_nil] at h
    cases h
  have hlast := List.getLast?_eq_some_getLast hne
  refine ⟨_, hlast, ?_⟩
  rw [needsOperator_eq, hlast, Option.any_some]

/-! ## The new entry -/

theorem insertName_of_needsOperator {s : Session} (h : needsOperator s.input = true)
    (name : String) : (s.insertName name false).input = s.input ++ " * " ++ name := by
  simp [insertName, h]

theorem insertName_of_not_needsOperator {s : Session} (h : needsOperator s.input = false)
    (name : String) : (s.insertName name false).input = s.input ++ name := by
  simp [insertName, h]

section Scanned

variable {text name : String} {tokens : List Token} (h : scan text.toList = .ok tokens)
  (hname : Registry.isName name.toList = true)

include h hname

/-- A name is a factor behind an entry if it is put there with its operator. -/
theorem scan_factor : scan (text ++ " * " ++ name).toList =
    .ok (tokens ++ [.operator .mul, .operand (.atom name.toList)]) := by
  have htext : (text ++ " * " ++ name).toList =
      text.toList ++ ([' '] ++ Operator.mul.symbol :: ([' '] ++ name.toList)) := by
    simp [String.toList_append, Operator.symbol]
  have hfollows : Follows ([' '] ++ Operator.mul.symbol :: ([' '] ++ name.toList)) :=
    ⟨rfl, (ends_symbol blank_space .mul).head?_ne⟩
  have hfactor : Scans .operator ([' '] ++ Operator.mul.symbol :: ([' '] ++ name.toList))
      [.operator .mul, .operand (.atom name.toList)] :=
    Scans.blank blank_space (Scans.operator (Scans.blank blank_space (scans_name hname)))
  rw [htext, scan, scanFrom_append h hfollows (.inl (cuts_blank _)), hfactor]
  rfl

/-- Behind a blank the operator before the name is missing. -/
theorem scan_behind_blank (hblank : ∃ c ∈ text.toList.getLast?, Text.isBlank c = true) :
    scan (text ++ name).toList = .error (.ofFragment .missingOperator name.toList) := by
  rw [String.toList_append, scan, scanFrom_append h (.name hname) (.inr hblank),
    scanFrom_operator_name hname]
  rfl

/-- Behind an atom the name is glued to it. -/
theorem scan_behind_atom (hatom : ∃ c ∈ text.toList.getLast?, isDelimiter c = false) :
    ∃ init atom, tokens = init ++ [.operand (.atom atom)] ∧
      scan (text ++ name).toList = .ok (init ++ [.operand (.atom (atom ++ name.toList))]) := by
  rw [String.toList_append]
  exact scanFrom_append_name h hatom hname

end Scanned

/-- **What a name does to an entry.**  Take any entry that is scanned.  If it ends with a letter, a
digit or a closing parenthesis, the name is put behind it as a factor, and the new entry is scanned
as that.  If it ends with a blank, the new entry lacks an operator; if it ends with any other
character, the name becomes the end of the last atom.  And in an entry that is empty, or ends, but
for blanks, with an operator, an opening parenthesis or a comma, the name is put without an
operator. -/
theorem insertName_cases (s : Session) {name : String}
    (hname : Registry.isName name.toList = true) :
    let input := (s.insertName name false).input
    (∀ tokens, scan s.input.toList = .ok tokens → ∃ c ∈ s.input.toList.getLast?,
      (c.isAlphanum = true ∨ c = ')' → input = s.input ++ " * " ++ name ∧
        scan input.toList = .ok (tokens ++ [.operator .mul, .operand (.atom name.toList)])) ∧
      (Text.isBlank c = true → input = s.input ++ name ∧
        scan input.toList = .error (.ofFragment .missingOperator name.toList)) ∧
      (c.isAlphanum = false → c ≠ ')' → Text.isBlank c = false → input = s.input ++ name ∧
        ∃ init atom, tokens = init ++ [.operand (.atom atom)] ∧
          scan input.toList = .ok (init ++ [.operand (.atom (atom ++ name.toList))]))) ∧
    ((∀ c ∈ (Text.trimEnd s.input.toList).getLast?,
      (Operator.ofSymbol? c).isSome = true ∨ c = '(' ∨ c = ',') → input = s.input ++ name) := by
  intro input
  refine ⟨fun tokens h => ?_, fun hlast => ?_⟩
  · obtain ⟨c, hc, hneeds⟩ := exists_last h
    refine ⟨c, hc, fun hoperand => ?_, fun hblank => ?_, fun halphanum hclosing hblank => ?_⟩
    · have hinput : input = s.input ++ " * " ++ name :=
        insertName_of_needsOperator (by simpa [hneeds, endsOperand] using hoperand) name
      exact ⟨hinput, hinput ▸ scan_factor h hname⟩
    · have hinput : input = s.input ++ name :=
        insertName_of_not_needsOperator (hneeds.trans (endsOperand_of_isBlank hblank)) name
      exact ⟨hinput, hinput ▸ scan_behind_blank h hname ⟨c, hc, hblank⟩⟩
    · have hinput : input = s.input ++ name :=
        insertName_of_not_needsOperator (by simp [hneeds, endsOperand, halphanum, hclosing]) name
      have hatom : isDelimiter c = false :=
        ((last_of_scanFrom h c hc).resolve_left (by simp [hblank])).resolve_left hclosing
      exact ⟨hinput, hinput ▸ scan_behind_atom h hname ⟨c, hc, hatom⟩⟩
  · exact insertName_of_not_needsOperator (needsOperator_eq_false hlast) name

/-- The constant `pi` behind a call, and behind a parenthesis that has been opened. -/
theorem insertName_cases_pi :
    let insert (entry : String) := (({ input := entry } : Session).insertName "pi" false).input
    (insert "sqrt(2)" = "sqrt(2) * pi" ∧
      scan (insert "sqrt(2)").toList = .ok [.operand (.call false "sqrt".toList ["2".toList]),
        .operator .mul, .operand (.atom "pi".toList)]) ∧
      insert "2 * ( " = "2 * ( pi" := by
  have hname : Registry.isName "pi".toList = true := by decide
  have hscan : scan "sqrt(2)".toList = .ok [.operand (.call false "sqrt".toList ["2".toList])] := by
    decide +kernel
  obtain ⟨c, hc, hfactor, -⟩ := (insertName_cases { input := "sqrt(2)" } hname).1 _ hscan
  obtain rfl : ')' = c := Option.some.inj hc
  obtain ⟨hinput, hfactor⟩ := hfactor (.inr rfl)
  have hopening : (Text.trimEnd "2 * ( ".toList).getLast? = some '(' := by decide +kernel
  have hinput' := (insertName_cases { input := "2 * ( " } hname).2 (by
    rw [hopening]
    exact fun c hc => .inr (.inl (Option.some.inj hc).symm))
  exact ⟨⟨hinput.trans (by decide +kernel), hfactor⟩, hinput'.trans (by decide +kernel)⟩

/-- Behind `2` and a blank the constant `pi` makes an entry that is complete no more, and the name
`x_`, which is scanned as well, is made another name. -/
theorem insertName_breaks_entry :
    let insert (entry : String) := (({ input := entry } : Session).insertName "pi" false).input
    "pi" ∈ ({} : Session).parser.registry.constants.map (·.name) ∧
      (scan "2 ".toList = .ok [.operand (.atom "2".toList)] ∧
        scan (insert "2 ").toList = .error (.ofFragment .missingOperator "pi".toList)) ∧
      (scan "x_".toList = .ok [.operand (.atom "x_".toList)] ∧
        scan (insert "x_").toList = .ok [.operand (.atom "x_pi".toList)]) := by
  have hconstant : "pi" ∈ (Registry.standard {}).constants.map (·.name) := by
    rw [Registry.constants_standard]
    simp
  exact ⟨hconstant, by decide +kernel, by decide +kernel⟩

end Session
end Reckoner
