import Mathlib
import Reckoner.Proofs.Evaluation.Standard
import Reckoner.Proofs.Expr.Strict
import Reckoner.Proofs.Grammar.Reread
import Reckoner.Report

/-!
# Every result is in canonical form

If the constants of a parser are canonical and its functions keep values canonical, which the
standard ones do, then the value of every entry is canonical (`canonical_of_evaluate`).  From a
canonical value one can read off what number it is: how it is written tells whether its expansion
ends (`Value.Canonical.nature_eq_ratio_iff`), and the report on an entry says so in words.

`Parser.result_canonical` is all this for the value of an entry; `Builder.isCanonical_build` and
`Parser.isCanonical_standard` are the parsers that it applies to.
-/

namespace Reckoner

/-! ## What the form of a value tells -/

namespace Value

/-- The decimal expansion never ends: no integer over a power of ten is the number. -/
def HasInfiniteExpansion (v : Value) : Prop :=
  ∀ (mantissa : Int) (scale : Nat), v.toRat ≠ mantissa / 10 ^ scale

variable {v w : Value}

/-- A canonical value is written as a ratio exactly if its expansion never ends. -/
theorem Canonical.nature_eq_ratio_iff (h : v.Canonical) :
    v.nature = .ratio ↔ v.HasInfiniteExpansion := by
  cases v with
  | integer n =>
    refine iff_of_false (by simp [nature]) fun hinfinite => hinfinite n 0 ?_
    simp [toRat]
  | decimal d =>
    refine iff_of_false (by simp [nature]) fun hinfinite => hinfinite d.mantissa d.scale ?_
    exact d.toRat_eq_div
  | ratio q =>
    refine iff_of_true rfl ?_
    rintro mantissa scale heq
    have hdvd := Decimal.den_toRat_dvd ⟨mantissa, scale⟩
    rw [Decimal.toRat_eq_div, ← heq] at hdvd
    exact h scale hdvd

/-- A canonical value is written as an integer exactly if it is one. -/
theorem Canonical.nature_eq_integer_iff (h : v.Canonical) :
    v.nature = .integer ↔ ∃ n : Int, v.toRat = n := by
  constructor
  · intro hnature
    cases v with
    | integer n => exact ⟨n, rfl⟩
    | decimal d => cases hnature
    | ratio q => cases hnature
  · rintro ⟨n, hn⟩
    rw [h.eq_integer hn]
    rfl

/-- Canonical values are the same exactly if they are the same number. -/
theorem Canonical.eq_iff (hv : v.Canonical) (hw : w.Canonical) : v = w ↔ v.toRat = w.toRat := by
  constructor
  · rintro rfl
    rfl
  · exact eq_of_toRat_eq hv hw

end Value

/-- The sentence about an infinite expansion is only said of ratios. -/
theorem Report.note_eq_iff (nature : Nature) :
    Report.note nature = Report.note .ratio ↔ nature = .ratio := by
  cases nature with
  | integer => exact iff_of_false (by decide +kernel) (by decide)
  | decimal => exact iff_of_false (by decide +kernel) (by decide)
  | ratio => exact iff_of_true rfl rfl

/-! ## Canonical evaluation -/

/-- Values are canonical; nothing is promised of faults. -/
def Contract.canonicalValues : Contract where
  value := Value.Canonical
  fault _ := True
  canonical h := h
  neg h := h.neg
  arithmetic _ := trivial

theorem Function.KeepsCanonical.keeps {f : Function} {options : Options}
    (h : f.KeepsCanonical options) : f.Keeps .canonicalValues options := by
  intro args _ hargs
  cases hcall : (f.call options args).value with
  | ok v => exact h args hargs v hcall
  | error x => trivial

namespace Parser

/-- A parser over canonical constants, with functions of the standard table or others that give
canonical values of canonical arguments. -/
structure IsCanonical (p : Parser) : Prop where
  names : p.registry.NamesValid
  constants : ∀ k ∈ p.registry.constants, k.value.Canonical
  functions : ∀ f ∈ p.registry.functions, f ∈ Standard.functions ∨ f.KeepsCanonical p.options

theorem IsCanonical.keeps {p : Parser} (hp : p.IsCanonical) :
    p.registry.Keeps .canonicalValues p.options where
  constants := hp.constants
  functions f hf := by
    cases hp.functions f hf with
    | inl hstandard => exact Standard.keeps_functions p.options hstandard
    | inr hkeeps => exact hkeeps.keeps

end Parser

/-! ## Canonical parsers -/

/-- A parser that is built of canonical constants and of functions that keep values canonical is
canonical, with or without the standard tables, at every precision. -/
theorem Builder.isCanonical_build {b : Builder} {p : Parser} (h : b.build = .ok p)
    (hconstants : ∀ k ∈ b.constants, k.value.Canonical)
    (hfunctions : ∀ f ∈ b.functions, f ∈ Standard.functions ∨ f.KeepsCanonical b.options) :
    p.IsCanonical := by
  have hnames := namesValid_build h
  obtain ⟨r, hr, h⟩ := ok_of_bind_eq_ok h
  obtain rfl := Registry.eq_of_ofTables hr
  cases h
  refine ⟨hnames, fun k hk => ?_, fun f hf => ?_⟩
  · rcases List.mem_append.1 (List.mem_mergeSort.1 hk) with hk | hk
    · exact hconstants k hk
    · split at hk
      · exact Standard.canonical_constants hk
      · cases hk
  · rcases List.mem_append.1 (List.mem_mergeSort.1 hf) with hf | hf
    · exact hfunctions f hf
    · split at hf
      · exact .inl hf
      · cases hf

/-- The parser over the standard tables is canonical at every precision and policy. -/
theorem Parser.isCanonical_standardWith (options : Options) :
    Parser.IsCanonical ⟨.standard options, options⟩ where
  names := Registry.namesValid_standard options
  constants _ hk := Standard.canonical_constants (List.mem_mergeSort.1 hk)
  functions _ hf := .inl (List.mem_mergeSort.1 hf)

theorem Parser.isCanonical_standard : Parser.standard.IsCanonical := isCanonical_standardWith {}

/-! ## Values of entries -/

namespace Parser

variable {p : Parser} {entry : String} {v w : Value}

/-- An entry that has a value has a tree, and its value is that of the tree. -/
theorem exists_of_evaluate (h : p.evaluate entry = .ok v) :
    ∃ e, p.parse entry = .ok e ∧ e.denote = .ok v := by
  cases hparse : p.parse entry with
  | ok e => exact ⟨e, rfl, (evaluate_of_parse hparse).symm.trans h⟩
  | error f =>
    rw [evaluate_of_parse_error hparse] at h
    cases h

theorem canonical_of_evaluate (hp : p.IsCanonical) (h : p.evaluate entry = .ok v) :
    v.Canonical := by
  obtain ⟨e, hparse, hvalue⟩ := exists_of_evaluate h
  have hkeeps := Expr.keeps_denote hp.keeps e (readable_of_parse hp.names hparse)
  rw [hvalue] at hkeeps
  exact hkeeps

/-! ## Reports -/

/-- An entry that can be read has a line of tokens with a postfix form. -/
theorem exists_line_of_parse {e : Expr} (h : p.parse entry = .ok e) :
    ∃ tokens line, Scanner.scan entry.toList = .ok tokens ∧
      Postfix.ofTokens tokens = .ok line := by
  unfold parse at h
  simp only [] at h
  split at h
  · cases h
  · obtain ⟨tokens, htokens, h⟩ := ok_of_bind_eq_ok h
    obtain ⟨line, hline, -⟩ := ok_of_bind_eq_ok h
    exact ⟨tokens, line, htokens, hline⟩

/-- A report is made of the value of the entry without its outer blanks, and fails as its
evaluation does: the tokens can be had once more where the entry has been read. -/
theorem report_eq_map (p : Parser) (entry : String) (places : Nat) :
    ∃ (tokens line : List Token) (e : Expr),
      p.report entry places = (fun v => .ofValue tokens line e v places) <$>
        p.evaluate (String.ofList (Text.trim entry.toList)) := by
  unfold report reportTraced
  simp only [Traced.value_bind, parseTraced]
  cases hparse : p.parse (String.ofList (Text.trim entry.toList)) with
  | error f =>
    refine ⟨[], [], default, ?_⟩
    rw [evaluate_of_parse_error hparse]
    rfl
  | ok e =>
    obtain ⟨tokens, line, htokens, hline⟩ := exists_line_of_parse hparse
    rw [String.toList_ofList] at htokens
    refine ⟨tokens, line, e, ?_⟩
    rw [evaluate_of_parse hparse, ← Expr.value_outcome]
    simp only [htokens, hline, bind, Except.bind, pure, Except.pure]
    cases e.outcome.value with
    | error f => rfl
    | ok v => rfl

theorem exists_ofValue_of_report {places : Nat} {report : Report}
    (h : p.report entry places = .ok report) :
    ∃ tokens line e v, p.evaluate (String.ofList (Text.trim entry.toList)) = .ok v ∧
      report = .ofValue tokens line e v places := by
  obtain ⟨tokens, line, e, hreport⟩ := report_eq_map p entry places
  rw [hreport] at h
  obtain ⟨v, hvalue, rfl⟩ := ok_of_map_eq_ok h
  exact ⟨tokens, line, e, v, hvalue, rfl⟩

/-- What a report says about the nature of the result. -/
theorem exists_of_report {places : Nat} {report : Report}
    (h : p.report entry places = .ok report) :
    ∃ v, p.evaluate (String.ofList (Text.trim entry.toList)) = .ok v ∧
      report.derivation.nature = v.nature ∧ report.derivation.note = Report.note v.nature := by
  obtain ⟨tokens, line, e, v, hvalue, rfl⟩ := exists_ofValue_of_report h
  exact ⟨v, hvalue, rfl, rfl⟩

/-- Outer blanks do not change the value of an entry. -/
theorem evaluate_trim (hnames : p.registry.NamesValid) (h : p.evaluate entry = .ok v)
    (htrim : p.evaluate (String.ofList (Text.trim entry.toList)) = .ok w) : v = w := by
  obtain ⟨e, hparse, hv⟩ := exists_of_evaluate h
  obtain ⟨e', hparse', hw⟩ := exists_of_evaluate htrim
  have hlevel := (level_of_parse hnames hparse).trim.2
  have hlevel' := level_of_parse hnames hparse'
  rw [String.toList_ofList] at hlevel'
  rw [hlevel.unique hlevel', hw] at hv
  exact (Except.ok.inj hv).symm

/-- **Every result is canonical.**  The value of an entry is in canonical form; so it is written
as a ratio, and a report says that it is one with an infinite expansion, exactly if its expansion
never ends; it is written as an integer exactly if it is one; and two results are the same value
exactly if they are the same number, even results of different parsers. -/
theorem result_canonical (hp : p.IsCanonical) (h : p.evaluate entry = .ok v) :
    v.Canonical ∧
    (v.nature = .ratio ↔ v.HasInfiniteExpansion) ∧
    (v.nature = .integer ↔ ∃ n : Int, v.toRat = n) ∧
    (∀ (places : Nat) (report : Report), p.report entry places = .ok report →
      report.derivation.nature = v.nature ∧
        (report.derivation.note = Report.note .ratio ↔ v.HasInfiniteExpansion)) ∧
    ∀ (p' : Parser) (entry' : String) (v' : Value), p'.IsCanonical →
      p'.evaluate entry' = .ok v' → (v = v' ↔ v.toRat = v'.toRat) := by
  have hv := canonical_of_evaluate hp h
  refine ⟨hv, hv.nature_eq_ratio_iff, hv.nature_eq_integer_iff, ?_, ?_⟩
  · intro places report hreport
    obtain ⟨w, hw, hnature, hnote⟩ := exists_of_report hreport
    obtain rfl := evaluate_trim hp.names h hw
    rw [hnote, Report.note_eq_iff]
    exact ⟨hnature, hv.nature_eq_ratio_iff⟩
  · intro p' entry' v' hp' h'
    exact hv.eq_iff (canonical_of_evaluate hp' h')

/-- Two thirds is a ratio and has no finite expansion. -/
theorem result_canonical_twoThirds :
    standard.IsCanonical ∧ standard.evaluate "-2/3" = .ok (.ratio (-2 / 3)) ∧
      (Value.ratio (-2 / 3)).HasInfiniteExpansion := by
  have hcanonical : (Value.ratio (-2 / 3)).Canonical :=
    Value.canonical_of_three_dvd (by norm_num)
  have htext : (Value.ratio (-2 / 3)).text = "-2/3" := by decide +kernel
  have hevaluate : standard.evaluate "-2/3" = .ok (.ratio (-2 / 3)) := by
    rw [← htext]
    exact Value.evaluate_text hcanonical (by decide) (by decide +kernel)
  exact ⟨isCanonical_standard, hevaluate,
    (result_canonical isCanonical_standard hevaluate).2.1.1 rfl⟩

end Parser
end Reckoner
