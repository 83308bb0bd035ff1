import Mathlib
import Reckoner.Proofs.Evaluation.Faults
import Reckoner.Proofs.Evaluation.Results

/-!
# The stages fit together

What the scanner makes of a text is a line that the grouping and the stack program take
(`Grammar.wellFormed_of_scan`, `Postfix.Alternates.exists_builds`).  So none of the faults that
these two keep for a line they cannot use is ever met in reading an entry
(`ParseCause.message_not_mem`), and where an entry has been read, its tokens can be had once more
for a report (`Parser.exists_line_of_parse`): a report fails exactly where the evaluation does
(`Parser.report_eq_map`).

`Parser.stages_fit` puts these together.
-/

namespace Reckoner

/-! ## Messages about lines -/

namespace ParseCause

/-- What is said of a line that cannot be grouped or built, and of an operator among the operands
of a line. -/
def lineMessages : List String :=
  ["deux opérandes adjacents", "opérateur sans opérande", "expression incomplète",
    "expression invalide", "opérateur à la place d'un opérande"]

theorem append_not_mem {start : String} {texts : List String}
    (h : ∀ text ∈ texts, start.toList.isPrefixOf text.toList = false) (rest : String) :
    start ++ rest ∉ texts := by
  intro hmem
  have hstart : start.toList.isPrefixOf (start ++ rest).toList = true := by
    rw [List.isPrefixOf_iff_prefix, String.toList_append]
    exact List.prefix_append _ _
  rw [h _ hmem] at hstart
  cases hstart

/-- Nothing that stops the reading of an entry is said in these words. -/
theorem message_not_mem {cause : ParseCause} (h : cause.stopsReading = true) :
    cause.message ∉ lineMessages := by
  cases cause with
  | tooTall limit =>
    have hmessage : (tooTall limit).message =
        "arbre trop haut (hauteur > " ++ toString limit ++ ")" := rfl
    rw [hmessage, String.append_assoc]
    exact append_not_mem (by decide) _
  | tooLong length limit =>
    have hmessage : (tooLong length limit).message =
        "entrée trop longue (" ++ toString length ++ " > " ++ toString limit ++ " caractères)" :=
      rfl
    rw [hmessage, String.append_assoc, String.append_assoc, String.append_assoc]
    exact append_not_mem (by decide) _
  | tooDeep limit =>
    have hmessage : (tooDeep limit).message =
        "imbrication trop profonde (> " ++ toString limit ++ ")" := rfl
    rw [hmessage, String.append_assoc]
    exact append_not_mem (by decide) _
  | wrongArgumentCount expected received =>
    have hmessage : (wrongArgumentCount expected received).message =
        "nombre d'arguments incorrect : " ++ toString expected ++ " attendu(s), " ++
          toString received ++ " reçu(s)" := rfl
    rw [hmessage, String.append_assoc, String.append_assoc, String.append_assoc]
    exact append_not_mem (by decide) _
  | adjacentOperands | operatorWithoutOperand | incompleteExpression | invalidExpression => cases h
  | invalidName | duplicateConstant | duplicateFunction | other message => cases h
  | _ => decide

end ParseCause

theorem Fault.StopsReading.message_not_mem {f : Fault} (h : f.StopsReading) :
    f.message ∉ ParseCause.lineMessages := by
  cases f with
  | parse cause fragment => exact ParseCause.message_not_mem h
  | arithmetic cause => exact h.elim

/-! ## Entries and reports -/

namespace Parser

/-- **The stages fit together.**  What is scanned, of whatever text, is well-formed, and it has a
postfix form that only an operand or the height of the tree can stop from being built.  So reading
an entry never fails for a line that cannot be grouped or built.  A report fails exactly if the
evaluation of the entry without its outer blanks does, and with the same fault; otherwise it gives
the text of the value and its reading, with two hundred places at most. -/
theorem stages_fit (p : Parser) (entry : String) (places : Nat) :
    (∀ text tokens, Scanner.scan text = .ok tokens → Grammar.WellFormed tokens ∧
      ∃ line, Postfix.ofTokens tokens = .ok line ∧ Postfix.Builds tokens line) ∧
    (∀ f, p.parse entry = .error f →
      f.StopsReading ∧ f.message ∉ ParseCause.lineMessages) ∧
    (∀ f, p.report entry places = .error f ↔
      p.evaluate (String.ofList (Text.trim entry.toList)) = .error f) ∧
    ∀ v, p.evaluate (String.ofList (Text.trim entry.toList)) = .ok v →
      ∃ report, p.report entry places = .ok report ∧ report.exact = v.text ∧
        report.reading = String.ofList (v.reading (min places 200)) := by
  obtain ⟨tokens, line, e, hreport⟩ := report_eq_map p entry places
  refine ⟨fun text tokens h => ?_, fun f hf => ?_, fun f => ?_, fun v hv => ?_⟩
  · have hwellFormed := Grammar.wellFormed_of_scan h
    exact ⟨hwellFormed, hwellFormed.alternates.exists_builds⟩
  · have hstops := p.only_parse entry f hf
    exact ⟨hstops, hstops.message_not_mem⟩
  · rw [hreport]
    cases p.evaluate (String.ofList (Text.trim entry.toList)) with
    | error f' =>
      show (.error f' : Except Fault Report) = .error f ↔ (.error f' : Outcome) = .error f
      rw [Except.error.injEq, Except.error.injEq]
    | ok v => exact iff_of_false (by rintro ⟨⟩) (by rintro ⟨⟩)
  · rw [hreport, hv]
    exact ⟨_, rfl, rfl, rfl⟩

/-- `-2/3` between blanks, and `2*`, which lacks an operand. -/
theorem stages_fit_two_thirds :
    Scanner.scan " -2/3 ".toList =
        .ok [.operand (.atom ['-', '2']), .operator .div, .operand (.atom ['3'])] ∧
      Grammar.WellFormed [.operand (.atom ['-', '2']), .operator .div, .operand (.atom ['3'])] ∧
      standard.parse "2*" = .error (.ofFragment .missingLastOperand "2*".toList) ∧
      (Fault.ofFragment .missingLastOperand "2*".toList).StopsReading ∧
      standard.evaluate (String.ofList (Text.trim " -2/3 ".toList)) = .ok (.ratio (-2 / 3)) ∧
      ∃ report, standard.report " -2/3 " 2 = .ok report ∧ report.exact = "-2/3" ∧
        report.reading = "-0.67" := by
  have hscan : Scanner.scan " -2/3 ".toList =
      .ok [.operand (.atom ['-', '2']), .operator .div, .operand (.atom ['3'])] := by
    decide +kernel
  have hfault : Scanner.scan "2*".toList =
      .error (.ofFragment .missingLastOperand "2*".toList) := by
    decide +kernel
  have hparse : standard.parse "2*" = .error (.ofFragment .missingLastOperand "2*".toList) := by
    unfold parse
    simp only []
    rw [if_neg (by decide), parseLevel, hfault]
    rfl
  have hcanonical : (Value.ratio (-2 / 3)).Canonical :=
    Value.canonical_of_three_dvd (by norm_num)
  have htext : (Value.ratio (-2 / 3)).text = "-2/3" := by decide +kernel
  have htrim : String.ofList (Text.trim " -2/3 ".toList) = (Value.ratio (-2 / 3)).text := by
    decide +kernel
  have hvalue : standard.evaluate (String.ofList (Text.trim " -2/3 ".toList)) =
      .ok (.ratio (-2 / 3)) := by
    rw [htrim]
    exact Value.evaluate_text hcanonical (by decide) (by decide +kernel)
  have hreading : String.ofList ((Value.ratio (-2 / 3)).reading 2) = "-0.67" := by decide +kernel
  obtain ⟨hstages, -, -, hreport⟩ := stages_fit standard " -2/3 " 2
  obtain ⟨report, hok, hexact, hread⟩ := hreport _ hvalue
  obtain ⟨-, hstops, -⟩ := stages_fit standard "2*" 2
  exact ⟨hscan, (hstages _ _ hscan).1, hparse, (hstops _ hparse).1, hvalue, report, hok,
    hexact.trans htext, hread.trans hreading⟩

end Parser
end Reckoner
