import Mathlib
import Reckoner.Desk.Session
import Reckoner.Proofs.Evaluation.Tables

/-!
# Commands to a session

Whatever happens to a session happens through a command: a text is typed, the entry evaluated, a
setting changed, and so on.  `perform` is what one command does and `run` what a list of them
does, one after the other.

Two commands look before they act, and what they can do is said here once for all proofs about
sessions:

* `configure_eq`: settings are never refused, because the parser that they ask for can always be
  built; only the settings and the parser change;
* `evaluate_cases`: evaluation leaves a blank entry alone, notes a calculation, or notes a fault.
-/

namespace Reckoner
namespace Session

/-! ## Changing the settings -/

/-- The options that settings stand for. -/
def optionsOf (settings : Settings) : Options where
  precision := settings.precision
  zeroOverZero := settings.zeroOverZero

/-- The parser over the standard tables at given settings. -/
def standardParser (settings : Settings) : Parser :=
  ⟨.standard (optionsOf settings), optionsOf settings⟩

theorem admissible_precision_pos (settings : Settings) : 1 ≤ (admissible settings).precision :=
  le_max_right _ _

theorem admissible_places_le (settings : Settings) :
    (admissible settings).places ≤ Report.maxPlaces := min_le_right _ _

/-- The parser for settings can be built. -/
theorem parserFor_eq {settings : Settings} (h : 1 ≤ settings.precision) :
    parserFor settings = .ok (standardParser settings) := by
  have hbuild := Builder.build_standard
    { precision := max settings.precision 1, zeroOverZero := settings.zeroOverZero }
  rw [max_eq_left h] at hbuild
  unfold parserFor Builder.withPrecision Builder.withZeroOverZero
  rw [max_eq_left h]
  exact hbuild

/-- Settings are brought into their ranges and taken; nothing but the parser goes with them, and
that only if precision or policy changed. -/
theorem configure_eq (s : Session) (settings : Settings) :
    s.configure settings = .ok { s with
      settings := admissible settings
      parser :=
        if (admissible settings).precision = s.settings.precision ∧
            (admissible settings).zeroOverZero = s.settings.zeroOverZero
        then s.parser else standardParser (admissible settings) } := by
  have hparser := parserFor_eq (admissible_precision_pos settings)
  by_cases hsame : (admissible settings).precision = s.settings.precision ∧
      (admissible settings).zeroOverZero = s.settings.zeroOverZero
  · simp only [configure, if_pos hsame]
    rfl
  · simp only [configure, if_neg hsame, hparser]
    rfl

/-! ## Evaluating -/

/-- The entry without the blanks around it. -/
def entry (s : Session) : String := String.ofList (Text.trim s.input.toList)

/-- The calculation that evaluating the entry succeeds in, as parser and settings are now. -/
def calculation? (s : Session) : Option Calculation :=
  if s.entry = "" then none
  else
    match s.parser.report s.entry s.settings.places with
    | .ok report => some ⟨s.entry, report⟩
    | .error _ => none

theorem calculation?_eq_some_iff {s : Session} {c : Calculation} :
    s.calculation? = some c ↔ s.entry ≠ "" ∧ c.entry = s.entry ∧
      s.parser.report s.entry s.settings.places = .ok c.report := by
  unfold calculation?
  by_cases hblank : s.entry = ""
  · simp [hblank]
  · rw [if_neg hblank]
    cases hreport : s.parser.report s.entry s.settings.places with
    | error f => simp
    | ok report =>
      obtain ⟨text, report'⟩ := c
      simp only [Option.some.injEq, Calculation.mk.injEq, Except.ok.injEq, ne_eq, hblank,
        not_false_eq_true, true_and]
      rw [eq_comm (a := s.entry)]

section

variable {s : Session}

/-- A blank entry is left alone. -/
theorem evaluate_of_blank (h : s.entry = "") : s.evaluate = s := by
  have hblank : s.entry.isEmpty = true := String.isEmpty_iff.2 h
  unfold evaluate
  rw [show String.ofList (Text.trim s.input.toList) = s.entry from rfl, if_pos hblank]

/-- An entry that has a fault is noted as a fault, and nothing else is. -/
theorem evaluate_of_error {f : Fault} (h : s.entry ≠ "")
    (hreport : s.parser.report s.entry s.settings.places = .error f) :
    s.evaluate = { s with current := some (.error f), wantsFocus := true } := by
  have hblank : ¬ s.entry.isEmpty = true := mt String.isEmpty_iff.1 h
  unfold evaluate
  rw [show String.ofList (Text.trim s.input.toList) = s.entry from rfl, if_neg hblank, hreport]

/-- A calculation that succeeds is the result, and goes on top of the history. -/
theorem evaluate_of_calculation {c : Calculation} (h : s.calculation? = some c) :
    s.evaluate = { s with
      current := some (.ok c)
      history := (c :: s.history).take historyLimit
      wantsFocus := true } := by
  obtain ⟨hne, hentry, hreport⟩ := calculation?_eq_some_iff.1 h
  have hblank : ¬ s.entry.isEmpty = true := mt String.isEmpty_iff.1 hne
  obtain ⟨text, report⟩ := c
  obtain rfl : text = s.entry := hentry
  unfold evaluate
  rw [show String.ofList (Text.trim s.input.toList) = s.entry from rfl, if_neg hblank, hreport]

/-- The result of an entry is the report of the parser on it, or its fault. -/
theorem current_evaluate (h : s.entry ≠ "") :
    s.evaluate.current =
      some ((s.parser.report s.entry s.settings.places).map (Calculation.mk s.entry)) := by
  cases hreport : s.parser.report s.entry s.settings.places with
  | ok report =>
    have hc : s.calculation? = some ⟨s.entry, report⟩ :=
      calculation?_eq_some_iff.2 ⟨h, rfl, hreport⟩
    rw [evaluate_of_calculation hc]
    rfl
  | error f =>
    rw [evaluate_of_error h hreport]
    rfl

/-- What evaluation can do. -/
theorem evaluate_cases (s : Session) :
    (s.entry = "" ∧ s.calculation? = none ∧ s.evaluate = s) ∨
    (∃ c, s.calculation? = some c ∧ s.evaluate = { s with
      current := some (.ok c)
      history := (c :: s.history).take historyLimit
      wantsFocus := true }) ∨
    ∃ f, s.calculation? = none ∧
      s.evaluate = { s with current := some (.error f), wantsFocus := true } := by
  by_cases hblank : s.entry = ""
  · exact .inl ⟨hblank, by simp [calculation?, hblank], evaluate_of_blank hblank⟩
  · cases hreport : s.parser.report s.entry s.settings.places with
    | ok report =>
      have hc : s.calculation? = some ⟨s.entry, report⟩ :=
        calculation?_eq_some_iff.2 ⟨hblank, rfl, hreport⟩
      exact .inr (.inl ⟨_, hc, evaluate_of_calculation hc⟩)
    | error f =>
      exact .inr (.inr ⟨f, by simp [calculation?, hblank, hreport],
        evaluate_of_error hblank hreport⟩)

end

/-! ## Commands -/

/-- What a session can be told. -/
inductive Command where
  | configure (settings : Settings)
  /-- Puts any text in place of the entry. -/
  | type (text : String)
  | evaluate
  | insertName (name : String) (isFunction : Bool)
  | takeUp (index : Nat)
  | clear
  | forget
  /-- Notes that the input has got the focus it asked for. -/
  | giveFocus
  deriving DecidableEq, Repr

/-- Carries out a command.  Settings that are refused change nothing. -/
def perform (s : Session) : Command → Session
  | .configure settings =>
    match s.configure settings with
    | .ok s' => s'
    | .error _ => s
  | .type text => s.type text
  | .evaluate => s.evaluate
  | .insertName name isFunction => s.insertName name isFunction
  | .takeUp i => s.takeUp i
  | .clear => s.clear
  | .forget => s.forget
  | .giveFocus => s.focusGiven

/-- Carries out commands, one after the other. -/
def run (s : Session) (commands : List Command) : Session := commands.foldl perform s

@[simp] theorem run_nil (s : Session) : run s [] = s := rfl

@[simp] theorem run_cons (s : Session) (c : Command) (commands : List Command) :
    run s (c :: commands) = run (s.perform c) commands := rfl

theorem run_append (s : Session) (before after : List Command) :
    run s (before ++ after) = run (run s before) after := List.foldl_append

theorem run_concat (s : Session) (commands : List Command) (c : Command) :
    run s (commands ++ [c]) = (run s commands).perform c := by
  rw [run_append, run_cons, run_nil]

/-- Taking an entry up again changes the input, if anything. -/
theorem exists_takeUp_eq (s : Session) (i : ℕ) :
    ∃ input wantsFocus, s.takeUp i = { s with input := input, wantsFocus := wantsFocus } := by
  unfold takeUp
  cases s.history[i]? with
  | none => exact ⟨s.input, s.wantsFocus, rfl⟩
  | some calculation => exact ⟨calculation.entry, true, rfl⟩

theorem perform_configure {s s' : Session} {settings : Settings}
    (h : s.configure settings = .ok s') : s.perform (.configure settings) = s' := by
  rw [perform, h]

end Session
end Reckoner
