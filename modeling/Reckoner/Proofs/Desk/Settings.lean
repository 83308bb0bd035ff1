import Mathlib
import Reckoner.Proofs.Desk.Commands

/-!
# The parser matches the settings

A session starts with the standard parser and rebuilds its parser when a setting changes that the
parser depends on, and only then.  `Matched` says what this is meant to keep: the settings are in
their ranges, and the parser is the one that would be built from them now.  A new session is
matched (`matched_new`), every command keeps a session matched (`Matched.perform`), and so does a
run (`matched_run`).

`parser_matches_settings` spells out what follows for a run: settings are always taken, options and
tables are those of the current settings, and the answer to an entry is the report of a parser
that is freshly built.
-/

namespace Reckoner
namespace Session

/-- The settings are in their ranges and the parser is made from them. -/
structure Matched (s : Session) : Prop where
  precision_pos : 1 ≤ s.settings.precision
  places_le : s.settings.places ≤ Report.maxPlaces
  parser_eq : s.parser = standardParser s.settings

theorem matched_new : Matched {} where
  precision_pos := by decide
  places_le := by decide
  parser_eq := rfl

/-- Settings that differ in nothing but the places of the reading ask for the same parser. -/
theorem standardParser_congr {a b : Settings} (hprecision : a.precision = b.precision)
    (hpolicy : a.zeroOverZero = b.zeroOverZero) : standardParser a = standardParser b := by
  rw [standardParser, standardParser, optionsOf, optionsOf, hprecision, hpolicy]

variable {s : Session}

/-- What keeps settings and parser keeps the session matched. -/
theorem Matched.of_eq {s' : Session} (h : s.Matched) (hsettings : s'.settings = s.settings)
    (hparser : s'.parser = s.parser) : s'.Matched := by
  obtain ⟨hprecision, hplaces, heq⟩ := h
  constructor
  · rwa [hsettings]
  · rwa [hsettings]
  · rw [hparser, hsettings, heq]

theorem Matched.configure (h : s.Matched) (settings : Settings) :
    (s.perform (.configure settings)).Matched := by
  rw [perform_configure (configure_eq s settings)]
  refine ⟨admissible_precision_pos settings, admissible_places_le settings, ?_⟩
  by_cases hsame : (admissible settings).precision = s.settings.precision ∧
      (admissible settings).zeroOverZero = s.settings.zeroOverZero
  · -- the old parser stays, and it is the right one: only the places may differ
    show (if _ then s.parser else _) = standardParser (admissible settings)
    rw [if_pos hsame, h.parser_eq]
    exact (standardParser_congr hsame.1 hsame.2).symm
  · show (if _ then s.parser else _) = standardParser (admissible settings)
    rw [if_neg hsame]

theorem Matched.perform (h : s.Matched) (c : Command) : (s.perform c).Matched := by
  cases c with
  | configure settings => exact h.configure settings
  | type text => exact h.of_eq rfl rfl
  | evaluate =>
    show s.evaluate.Matched
    rcases evaluate_cases s with ⟨-, -, heq⟩ | ⟨c, -, heq⟩ | ⟨f, -, heq⟩
    · rwa [heq]
    · rw [heq]
      exact h.of_eq rfl rfl
    · rw [heq]
      exact h.of_eq rfl rfl
  | insertName name isFunction => exact h.of_eq rfl rfl
  | takeUp i =>
    show (s.takeUp i).Matched
    obtain ⟨input, wantsFocus, heq⟩ := exists_takeUp_eq s i
    rw [heq]
    exact h.of_eq rfl rfl
  | clear => exact h.of_eq rfl rfl
  | forget => exact h.of_eq rfl rfl
  | giveFocus => exact h.of_eq rfl rfl

/-- Commands keep a session matched. -/
theorem Matched.run (h : s.Matched) (commands : List Command) : (run s commands).Matched := by
  induction commands generalizing s with
  | nil => exact h
  | cons c commands ih => exact ih (h.perform c)

theorem matched_run (commands : List Command) : (run {} commands).Matched :=
  matched_new.run commands

/-- **The parser always matches the settings.**  After any commands, any settings are taken, in
their ranges; the parser calculates as the current settings say and within the usual limits; it
knows the standard functions and the two standard constants at the current precision; and it is
the parser that would be built from the current settings, so the answer to an entry is the report
of a parser that is freshly built. -/
theorem parser_matches_settings (commands : List Command) :
    let s := run {} commands
    (∀ settings, ∃ s', s.configure settings = .ok s' ∧ s'.settings = admissible settings) ∧
    s.parser.options = { precision := s.settings.precision
                         zeroOverZero := s.settings.zeroOverZero
                         limits := {} } ∧
    1 ≤ s.settings.precision ∧
    s.settings.places ≤ Report.maxPlaces ∧
    s.parser.registry.functions.Perm Standard.functions ∧
    s.parser.registry.constants =
      [⟨"e", .approximate (FixedPoint.e s.settings.precision) s.settings.precision⟩,
       ⟨"pi", .approximate (FixedPoint.pi s.settings.precision) s.settings.precision⟩] ∧
    ∃ fresh, parserFor s.settings = .ok fresh ∧ s.parser = fresh ∧
      ∀ text, (s.type text).entry ≠ "" →
        (s.type text).evaluate.current =
          some ((fresh.report (s.type text).entry s.settings.places).map
            (Calculation.mk (s.type text).entry)) := by
  intro s
  have hmatched : s.Matched := matched_run commands
  have hparser := hmatched.parser_eq
  refine ⟨fun settings => ⟨_, configure_eq s settings, rfl⟩, ?_, hmatched.precision_pos,
    hmatched.places_le, ?_, ?_, standardParser s.settings, parserFor_eq hmatched.precision_pos,
    hparser, ?_⟩
  · rw [hparser]
    rfl
  · rw [hparser]
    exact Registry.perm_sortByName _ _
  · rw [hparser]
    exact Registry.constants_standard _
  · intro text hne
    rw [← hparser]
    exact current_evaluate hne

/-- Settings beyond their ranges: the reading is cut to two hundred places, and the parser takes
zero over zero for zero from then on. -/
theorem parser_matches_settings_zeroOverZero :
    let s := run {} [.configure ⟨10, .zero, 10000⟩]
    s.settings = ⟨10, .zero, 200⟩ ∧ parserFor s.settings = .ok s.parser ∧
      (s.type "0/0").evaluate.history.map (·.report.exact) = ["0"] := by
  have hrun : run {} [.configure ⟨10, .zero, 10000⟩] =
      { settings := ⟨10, .zero, 200⟩, parser := standardParser ⟨10, .zero, 200⟩ } :=
    perform_configure (configure_eq {} ⟨10, .zero, 10000⟩)
  refine ⟨by rw [hrun], ?_, by rw [hrun]; decide +kernel⟩
  obtain ⟨fresh, hfresh, heq, -⟩ :=
    (parser_matches_settings [.configure ⟨10, .zero, 10000⟩]).2.2.2.2.2.2
  rw [hfresh, heq]

end Session
end Reckoner
