import Mathlib
import Reckoner.Proofs.Desk.Commands

/-!
# The history is the recent successes

The history is a list that is cut whenever something is put on top of it.  Beside it stands the
whole trace of a run: each command with the session that it was given to.  `successes` reads off
the trace the calculations that have succeeded since the history was last forgotten, newest first,
however many they are.

* `history_run`: the history is the first fifty of them;
* `exists_of_mem_successes`: each of them is an evaluation of the run, with the entry and the
  report of that moment, and the history has not been forgotten since;
* `history_recent`: both, together with what an evaluation that does not succeed may change.
-/

namespace Reckoner
namespace Session

/-! ## The trace of a run -/

/-- Each command with the session that it is given to. -/
def trace (s : Session) : List Command → List (Session × Command)
  | [] => []
  | c :: commands => (s, c) :: trace (s.perform c) commands

theorem trace_concat (s : Session) (commands : List Command) (c : Command) :
    trace s (commands ++ [c]) = trace s commands ++ [(run s commands, c)] := by
  induction commands generalizing s with
  | nil => rfl
  | cons d commands ih => simp [trace, ih]

/-- The calculation that a step succeeds in, if it is an evaluation and succeeds. -/
def success? : Session × Command → Option Calculation
  | (s, .evaluate) => s.calculation?
  | _ => none

/-- What has succeeded since the history was last forgotten, newest first. -/
def successes (s : Session) (commands : List Command) : List Calculation :=
  ((trace s commands).reverse.takeWhile fun step => step.2 != .forget).filterMap success?

section

variable (s : Session) (commands : List Command)

theorem successes_nil : successes s [] = [] := rfl

theorem successes_forget : successes s (commands ++ [.forget]) = [] := by
  simp [successes, trace_concat]

/-- Any other command adds the calculation that it succeeds in, if there is one. -/
theorem successes_concat {c : Command} (h : c ≠ .forget) :
    successes s (commands ++ [c]) =
      (success? (run s commands, c)).toList ++ successes s commands := by
  have hkeep : (c != .forget) = true := by simpa using h
  simp only [successes, trace_concat, List.reverse_concat, List.takeWhile_cons, hkeep, if_true]
  cases hsuccess : success? (run s commands, c) with
  | none => simp [hsuccess]
  | some calculation => simp [hsuccess]

end

theorem success?_eq_none {s : Session} {c : Command} (h : c ≠ .evaluate) :
    success? (s, c) = none := by
  cases c with
  | evaluate => exact absurd rfl h
  | _ => rfl

/-- A calculation that is still remembered is one that the run has made since. -/
theorem exists_of_mem_successes {s : Session} {commands : List Command} {calculation : Calculation}
    (h : calculation ∈ successes s commands) :
    ∃ before after, commands = before ++ .evaluate :: after ∧ .forget ∉ after ∧
      (run s before).calculation? = some calculation := by
  induction commands using List.reverseRecOn with
  | nil => simp [successes_nil] at h
  | append_singleton commands c ih =>
    by_cases hforget : c = .forget
    · simp [hforget, successes_forget] at h
    · rw [successes_concat s commands hforget, List.mem_append] at h
      rcases h with h | h
      · by_cases hevaluate : c = .evaluate
        · rw [hevaluate, Option.mem_toList] at h
          exact ⟨commands, [], by rw [hevaluate], by simp, h⟩
        · simp [success?_eq_none hevaluate] at h
      · obtain ⟨before, after, rfl, hafter, hcalculation⟩ := ih h
        refine ⟨before, after ++ [c], by simp, ?_, hcalculation⟩
        simp [hafter, Ne.symm hforget]

/-! ## The history -/

/-- Only evaluating and forgetting touch the history. -/
theorem history_perform {s : Session} {c : Command} (hevaluate : c ≠ .evaluate)
    (hforget : c ≠ .forget) : (s.perform c).history = s.history := by
  cases c with
  | configure settings => rw [perform_configure (configure_eq s settings)]
  | type text => rfl
  | evaluate => exact absurd rfl hevaluate
  | insertName name isFunction => rfl
  | takeUp i =>
    show (s.takeUp i).history = s.history
    obtain ⟨input, wantsFocus, heq⟩ := exists_takeUp_eq s i
    rw [heq]
  | clear => rfl
  | forget => exact absurd rfl hforget
  | giveFocus => rfl

/-- Cutting a list before something is put on top does not show after it is cut again. -/
theorem take_cons_take {α : Type} (a : α) (l : List α) (n : ℕ) :
    (a :: l.take n).take n = (a :: l).take n := by
  cases n with
  | zero => rfl
  | succ n => simp [List.take_take]

/-- The history of a run is the first of its successes. -/
theorem history_run (commands : List Command) :
    (run {} commands).history = (successes {} commands).take historyLimit := by
  induction commands using List.reverseRecOn with
  | nil => rfl
  | append_singleton commands c ih =>
    rw [run_concat]
    by_cases hforget : c = .forget
    · subst hforget
      simp [successes_forget, perform, forget]
    · rw [successes_concat _ _ hforget]
      by_cases hevaluate : c = .evaluate
      · subst hevaluate
        show (run {} commands).evaluate.history = _
        rcases evaluate_cases (run {} commands) with
          ⟨-, hnone, heq⟩ | ⟨calculation, hsome, heq⟩ | ⟨f, hnone, heq⟩
        · simp [success?, hnone, heq, ih]
        · simp [success?, hsome, heq, ih, take_cons_take]
        · simp [success?, hnone, heq, ih]
      · rw [history_perform hevaluate hforget, success?_eq_none hevaluate, ih]
        rfl

/-- **The history is exactly the recent successes.**  After any commands it lists, newest first,
the last fifty of the calculations that have succeeded since it was last forgotten, each with the
entry and the report of the moment in which it was evaluated.  An evaluation that fails changes
nothing but the result and the wish for focus, the evaluation of a blank entry changes nothing, and
no other command than evaluating and forgetting touches the history. -/
theorem history_recent (commands : List Command) :
    (run {} commands).history = (successes {} commands).take 50 ∧
    (run {} commands).history.length = min 50 (successes {} commands).length ∧
    (∀ c ∈ (run {} commands).history, ∃ before after,
      commands = before ++ .evaluate :: after ∧ .forget ∉ after ∧
      (run {} before).entry ≠ "" ∧ c.entry = (run {} before).entry ∧
      (run {} before).parser.report c.entry (run {} before).settings.places = .ok c.report) ∧
    ∀ s : Session,
      (∀ f, s.entry ≠ "" → s.parser.report s.entry s.settings.places = .error f →
        s.evaluate = { s with current := some (.error f), wantsFocus := true }) ∧
      (s.entry = "" → s.evaluate = s) ∧
      ∀ c : Command, c ≠ .evaluate → c ≠ .forget → (s.perform c).history = s.history := by
  have hhistory : (run {} commands).history = (successes {} commands).take 50 :=
    history_run commands
  refine ⟨hhistory, by rw [hhistory, List.length_take], ?_, ?_⟩
  · intro c hc
    rw [hhistory] at hc
    obtain ⟨before, after, hcommands, hafter, hcalculation⟩ :=
      exists_of_mem_successes (List.mem_of_mem_take hc)
    obtain ⟨hne, hentry, hreport⟩ := calculation?_eq_some_iff.1 hcalculation
    exact ⟨before, after, hcommands, hafter, hne, hentry, by rwa [hentry]⟩
  · intro s
    exact ⟨fun f => evaluate_of_error, evaluate_of_blank, fun c => history_perform⟩

/-- Two successes around a fault and a blank entry, after one that was forgotten. -/
theorem history_recent_fault_between :
    let commands : List Command := [.type "7", .evaluate, .forget, .type " 1/3 ", .evaluate,
      .type "1/0", .evaluate, .type "  ", .evaluate, .takeUp 0, .type "2", .evaluate]
    (successes {} commands).map (·.entry) = ["2", "1/3"] ∧
      (run {} commands).history.map (·.report.exact) = ["2", "1/3"] := by
  intro commands
  refine ⟨by decide +kernel, ?_⟩
  rw [(history_recent commands).1]
  decide +kernel

end Session
end Reckoner
