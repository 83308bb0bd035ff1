import Mathlib
import Reckoner.Desk.Panel
import Reckoner.Proofs.Desk.Settings
import Reckoner.Proofs.Evaluation.Results
import Reckoner.Proofs.Text.Reading

/-!
# The reading on the panel

Whatever is done at the panel, its session is one that commands have led to (`Panel.reached_run`):
every key and every widget that changes the session does so by a command.

The panel shows a result as it was computed, under a title that is made afresh from the settings.
So the two need not agree.  What holds is said by `Panel.reading_of_evaluation`: the reading shown
is the half-even reading of the exact value shown, at the number of places that was set when the
entry was evaluated.  It is a reading at the number in the title exactly if that is still the same
number.  `Panel.reading_under_new_title` is a panel on which it is not.
-/

namespace Reckoner

/-! ## Where a result comes from -/

namespace Session

/-- A command that leaves a calculation as the result either finds it there or has just made it. -/
theorem current_perform {s : Session} {command : Command} {c : Calculation}
    (h : (s.perform command).current = some (.ok c)) :
    s.current = some (.ok c) ∨ command = .evaluate ∧ s.calculation? = some c := by
  cases command with
  | configure settings =>
    rw [perform_configure (configure_eq s settings)] at h
    exact .inl h
  | type text => exact .inl h
  | evaluate =>
    change s.evaluate.current = some (.ok c) at h
    rcases evaluate_cases s with ⟨-, -, heq⟩ | ⟨c', hc', heq⟩ | ⟨f, -, heq⟩
    · rw [heq] at h
      exact .inl h
    · rw [heq] at h
      cases h
      exact .inr ⟨rfl, hc'⟩
    · rw [heq] at h
      cases h
  | insertName name isFunction => exact .inl h
  | takeUp i =>
    change (s.takeUp i).current = some (.ok c) at h
    obtain ⟨input, wantsFocus, heq⟩ := exists_takeUp_eq s i
    rw [heq] at h
    exact .inl h
  | clear => cases h
  | forget => exact .inl h
  | giveFocus => exact .inl h

/-- The result of a run is that of one of its evaluations, and has stood there ever since. -/
theorem current_run {commands : List Command} {c : Calculation}
    (h : (run {} commands).current = some (.ok c)) :
    ∃ before after, commands = before ++ .evaluate :: after ∧
      (run {} before).calculation? = some c ∧
      ∀ later, later <+: after →
        (run {} (before ++ .evaluate :: later)).current = some (.ok c) := by
  induction commands using List.reverseRecOn with
  | nil => cases h
  | append_singleton commands command ih =>
    have hperform := h
    rw [run_concat] at hperform
    rcases current_perform hperform with hcurrent | ⟨rfl, hc⟩
    · obtain ⟨before, after, rfl, hc, hstands⟩ := ih hcurrent
      refine ⟨before, after ++ [command], by simp, hc, ?_⟩
      intro later hlater
      rcases List.prefix_concat_iff.1 hlater with rfl | hlater
      · simpa using h
      · exact hstands later hlater
    · refine ⟨commands, [], rfl, hc, ?_⟩
      intro later hlater
      rw [List.prefix_nil.1 hlater]
      exact h

end Session

/-! ## Reachable panels -/

namespace Panel

/-- What can be done at the panel. -/
inductive Gesture where
  | press (kind : WidgetKind) (text : String) (nth : Nat)
  | type (text : String)
  | enter
  | escape
  | dial (nth : Nat) (value : Int)
  deriving DecidableEq, Repr

/-- What a gesture does; a widget that is not there does nothing. -/
def respond (p : Panel) : Gesture → Panel
  | .press kind text nth => (p.press? kind text nth).getD p
  | .type text => p.type text
  | .enter => p.enter
  | .escape => p.escape
  | .dial nth value => (p.dial? nth value).getD p

/-- The session is one that commands have led to. -/
def Reached (p : Panel) : Prop := ∃ commands, p.session = Session.run {} commands

variable {p : Panel}

theorem Reached.settle (h : p.Reached) : p.settle.Reached := by
  obtain ⟨commands, hcommands⟩ := h
  unfold Panel.settle
  split
  · refine ⟨commands ++ [.giveFocus], ?_⟩
    rw [Session.run_concat, ← hcommands]
    rfl
  · exact ⟨commands, hcommands⟩

/-- A change of the session is reached if it is what a command does. -/
theorem Reached.update (h : p.Reached) (command : Session.Command) {f : Session → Session}
    (hf : f p.session = p.session.perform command) : (p.update f).Reached := by
  obtain ⟨commands, hcommands⟩ := h
  refine Reached.settle ⟨commands ++ [command], ?_⟩
  rw [Session.run_concat, ← hcommands]
  exact hf

/-- Dialled settings are never refused, so that they show as no fault. -/
theorem Reached.configure (h : p.Reached) (settings : Settings) :
    (p.configure settings).Reached := by
  refine h.update (.configure settings) ?_
  simp only [Session.perform, Session.configure_eq]

theorem Reached.perform (h : p.Reached) (action : Action) : (p.perform action).Reached := by
  cases action with
  | evaluate => exact h.update .evaluate rfl
  | clear => exact h.update .clear rfl
  | setZeroOverZero policy => exact h.configure _
  | insertName name isFunction => exact h.update (.insertName name isFunction) rfl
  | toggleDerivation => exact h
  | takeUp i => exact h.update (.takeUp i) rfl
  | forget => exact h.update .forget rfl
  | focusInput => exact h

theorem Reached.press (h : p.Reached) (kind : WidgetKind) (text : String) (nth : Nat) :
    ((p.press? kind text nth).getD p).Reached := by
  unfold press?
  cases (p.view.filter fun w => w.kind == kind && w.text == text)[nth]? with
  | none => exact h
  | some widget =>
    cases haction : widget.action? with
    | none => simpa [haction] using h
    | some action => simpa [haction] using h.perform action

theorem Reached.respond (h : p.Reached) (gesture : Gesture) : (p.respond gesture).Reached := by
  cases gesture with
  | press kind text nth => exact h.press kind text nth
  | type text => exact h.update (.type text) rfl
  | enter =>
    show p.enter.Reached
    unfold enter
    split
    · exact Reached.update (p := { p with focused := false }) h .evaluate rfl
    · exact h
  | escape => exact h.update .clear rfl
  | dial nth value =>
    match nth with
    | 0 => exact h.configure _
    | 1 => exact h.configure _
    | _ + 2 => exact h

theorem reached_new : new.Reached := Reached.settle ⟨[], rfl⟩

/-- Whatever is done at the panel, commands could have done it. -/
theorem reached_run (gestures : List Gesture) : (gestures.foldl respond new).Reached := by
  induction gestures using List.reverseRecOn with
  | nil => exact reached_new
  | append_singleton gestures gesture ih =>
    rw [List.foldl_append]
    exact ih.respond gesture

end Panel

/-! ## The reading under its title -/

/-- A calculation shows an exact value and the reading of it at the places that are set. -/
theorem Session.Matched.exists_of_calculation {s : Session} (h : s.Matched) {c : Calculation}
    (hc : s.calculation? = some c) :
    ∃ v : Value, v.Canonical ∧ c.report.exact = v.text ∧
      IsReading v.toRat s.settings.places c.report.reading.toList := by
  obtain ⟨-, -, hreport⟩ := calculation?_eq_some_iff.1 hc
  obtain ⟨tokens, line, e, v, hvalue, heq⟩ := Parser.exists_ofValue_of_report hreport
  rw [h.parser_eq] at hvalue
  refine ⟨v, Parser.canonical_of_evaluate (Parser.isCanonical_standardWith _) hvalue, ?_, ?_⟩
  · rw [heq]
    rfl
  · rw [heq]
    show IsReading v.toRat _ (String.ofList (v.reading (min s.settings.places _))).toList
    rw [min_eq_left h.places_le, String.toList_ofList]
    exact v.isReading_reading (h.places_le.trans_lt (by decide))

namespace Panel

/-- **The reading on the panel is that of the evaluation.**  When the panel shows a successful
result, there is an evaluation that it is the result of and since which it has stood there.  Under
the number of places that is set now stands the half-even reading of the exact value, at the number
of places that was set then: a reading at the number in the title if and only if that number is
still the same. -/
theorem reading_of_evaluation {p : Panel} {commands : List Session.Command} {c : Calculation}
    (hp : p.session = Session.run {} commands) (hc : p.session.current = some (.ok c)) :
    ∃ (before after : List Session.Command) (v : Value),
      commands = before ++ .evaluate :: after ∧
      (Session.run {} before).calculation? = some c ∧
      (∀ later, later <+: after →
        (Session.run {} (before ++ .evaluate :: later)).current = some (.ok c)) ∧
      [.label "exact", .label v.text,
        .label s!"lecture ({p.session.settings.places} chiffres)",
        .label c.report.reading] <+: p.resultWidgets ∧
      v.Canonical ∧
      IsReading v.toRat (Session.run {} before).settings.places c.report.reading.toList ∧
      (IsReading v.toRat p.session.settings.places c.report.reading.toList ↔
        p.session.settings.places = (Session.run {} before).settings.places) := by
  have hcurrent : (Session.run {} commands).current = some (.ok c) := by rw [← hp, hc]
  obtain ⟨before, after, hcommands, hcalculation, hstands⟩ := Session.current_run hcurrent
  obtain ⟨v, hv, hexact, hreading⟩ :=
    (Session.matched_run before).exists_of_calculation hcalculation
  refine ⟨before, after, v, hcommands, hcalculation, hstands, ?_, hv, hreading, ?_⟩
  · unfold resultWidgets
    rw [hc, ← hexact]
    exact List.prefix_append_of_prefix (List.prefix_append [_, _, _, _] [_])
  · constructor
    · intro h
      exact h.places_eq hreading
    · intro h
      rwa [h]

/-- An eighth at two places, with another entry typed since: the title is still right, and the tie
has gone to the even digit. -/
theorem reading_of_evaluation_eighth :
    let p : Panel := ⟨Session.run {} [.configure { places := 2 }, .type "1/8", .evaluate,
      .type "5"], false, false⟩
    p.resultWidgets.take 4 = [.label "exact", .label "0.125", .label "lecture (2 chiffres)",
      .label "0.12"] ∧
    ∃ v : Value, v.Canonical ∧ v.text = "0.125" ∧ IsReading v.toRat 2 "0.12".toList := by
  intro p
  have hwidgets : p.resultWidgets.take 4 = [.label "exact", .label "0.125",
      .label "lecture (2 chiffres)", .label "0.12"] := by decide +kernel
  have hc : p.session.current = some (.ok ⟨"1/8", "0.125", "0.12", "1 / 8", "1 8 /", "(1 / 8)",
      .decimal, Report.note .decimal⟩) := by decide +kernel
  obtain ⟨before, after, v, -, -, -, hshown, hv, hreading, -⟩ := reading_of_evaluation rfl hc
  have htext : v.text = "0.125" := by
    have hfirst : [_, _, _, _] = p.resultWidgets.take 4 := List.prefix_iff_eq_take.1 hshown
    rw [hwidgets] at hfirst
    simp only [List.cons.injEq, Widget.label.injEq] at hfirst
    exact hfirst.2.1
  have hplaces : placesShown "0.12".toList = 2 := by decide
  rw [← hreading.placesShown_eq, hplaces] at hreading
  exact ⟨hwidgets, v, hv, htext, hreading⟩

/-- A third is evaluated at twenty places, and then five are dialled: the title says five, and
twenty digits stand under it. -/
theorem reading_under_new_title :
    let p := [Gesture.type "1/3", .enter, .dial 1 5].foldl respond new
    p.Reached ∧
    p.resultWidgets.take 4 = [.label "exact", .label "1/3", .label "lecture (5 chiffres)",
      .label "0.33333333333333333333"] ∧
    (Value.ratio (1 / 3)).Canonical ∧ (Value.ratio (1 / 3)).text = "1/3" ∧
    IsReading (1 / 3) 5 "0.33333".toList ∧
    ¬ IsReading (1 / 3) 5 "0.33333333333333333333".toList := by
  intro p
  have hreading : IsReading (1 / 3) 5 "0.33333".toList :=
    (Value.isReading_iff (.ratio (1 / 3)) (by decide) _).2 (by decide +kernel)
  refine ⟨reached_run _, by decide +kernel, Value.canonical_of_three_dvd (by norm_num),
    by decide +kernel, hreading, ?_⟩
  intro h
  exact absurd (h.unique hreading) (by decide)

end Panel
end Reckoner
