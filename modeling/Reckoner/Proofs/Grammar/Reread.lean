import Mathlib
import Reckoner.Proofs.Arithmetic.Shortcut
import Reckoner.Proofs.Expr.Strict
import Reckoner.Proofs.Grammar.Parsing

/-!
# Exact text reads back

A literal is an entry, its sign read as that of an operand (`signed_of_readLiteral`).  So is the
exact text of a canonical value, which is a literal or the quotient of two (`line_chars`).  A
parser with room for it gives back the very same value (`evaluate_text`), so that no two
canonical values share a text (`text_injective`).  The text of a mantissa and a scale reads as
their canonical value even where it has trailing zeros; `text_reads_back` puts the three together.
-/

namespace Reckoner
namespace Value

/-- The tree that the exact text of a value reads as. -/
def tree (o : Options) : Value → Expr
  | ratio q => .binary o .div (.literal (integer q.num)) (.literal (integer q.den))
  | v => .literal v

section Line

variable {r : Registry} {o : Options} {Inside : List Char → Expr → Prop}

/-- A literal is an operand with its sign: the sign of the literal becomes that of the operand. -/
theorem signed_of_readLiteral {text : List Char} {v : Value} (h : readLiteral text = .ok v) :
    Grammar.Signed r o Inside text (.literal v) := by
  obtain ⟨p, e, hbody, hp, rfl⟩ := literal?_eq_ok_iff.1 (readLiteral_eq_ok_iff.1 h)
  have hsign := hp.cutSign_chars
  have hread : readLiteral p.chars = .ok (p.value false e) :=
    readLiteral_eq_ok_iff.2 (literal?_eq_ok_iff.2 ⟨p, e, by rw [hsign], hp, by rw [hsign]⟩)
  have hnumber : Grammar.Primary r o Inside p.chars (.literal (p.value false e)) :=
    .number hsign hread
  rcases cutSign_cases text with hcut | ⟨rest, rfl, hcut⟩ | ⟨rest, rfl, hcut⟩
  · rw [hcut] at hbody ⊢
    obtain rfl : text = p.chars := hbody
    exact .plain hnumber
  · rw [hcut] at hbody ⊢
    obtain rfl : rest = p.chars := hbody
    exact Grammar.Signed.plus (b := []) Grammar.blank_nil hnumber
  · rw [hcut] at hbody ⊢
    obtain rfl : rest = p.chars := hbody
    rw [LiteralParts.value_true]
    exact Grammar.Signed.minus (b := []) Grammar.blank_nil hnumber

/-- The text of a mantissa and a scale is a literal with its sign. -/
theorem signed_fixedPoint (m : Int) (s : Nat) :
    Grammar.Signed r o Inside (Numeral.fixedPoint m s) (.literal (scaled m s)) :=
  signed_of_readLiteral (readLiteral_eq_ok_iff.2 (literal?_fixedPoint m s))

theorem signed_numeral (n : Int) :
    Grammar.Signed r o Inside (Numeral.signed n) (.literal (integer n)) := by
  have h : Grammar.Signed r o Inside (Numeral.fixedPoint n 0) (.literal (scaled n 0)) :=
    signed_fixedPoint n 0
  rwa [scaled_zero, Numeral.fixedPoint, Numeral.pointed, if_pos rfl] at h

theorem line_of_signed {text : List Char} {e : Expr} (h : Grammar.Signed r o Inside text e) :
    Grammar.Line r o Inside text e := by
  refine (Grammar.Line.intro Grammar.blank_nil h .nil Grammar.blank_nil).cast ?_
  simp

theorem scaled_eq_decimal {d : Decimal} (h : d.IsNormal) : scaled d.mantissa d.scale = decimal d :=
  eq_of_toRat_eq (canonical_ofDecimal _) h (toRat_ofDecimal _)

/-- The exact text of a canonical value is a line without parentheses. -/
theorem line_chars {v : Value} (h : v.Canonical) : Grammar.Line r o Inside v.chars (v.tree o) := by
  cases v with
  | integer n => exact line_of_signed (signed_numeral n)
  | decimal d =>
    have hd : Grammar.Signed r o Inside d.chars (.literal (scaled d.mantissa d.scale)) :=
      signed_fixedPoint d.mantissa d.scale
    rw [scaled_eq_decimal h] at hd
    exact line_of_signed hd
  | ratio q =>
    have hden : Grammar.Signed r o Inside (Numeral.signed q.den) (.literal (integer q.den)) :=
      signed_numeral q.den
    have hslash : Grammar.Chain r o Inside
        ([] ++ Operator.div.symbol :: ([] ++ (Numeral.signed q.den ++ [])))
        [(.div, .literal (integer q.den))] :=
      .cons Grammar.blank_nil Grammar.blank_nil hden .nil
    refine (Grammar.Line.intro Grammar.blank_nil (signed_numeral q.num) hslash
      Grammar.blank_nil).cast ?_
    simp [chars, Numeral.signed, Numeral.withSign, Operator.symbol]

end Line

theorem height_tree_le (o : Options) (v : Value) : (v.tree o).height ≤ 2 := by
  cases v <;> simp [tree, Expr.height]

/-- The tree of the exact text stands for the value. -/
theorem denote_tree {v : Value} (h : v.Canonical) (options : Options) :
    (v.tree options).denote = .ok v := by
  cases v with
  | integer n => rw [tree, Expr.denote]; simp
  | decimal d => rw [tree, Expr.denote]; simp
  | ratio q =>
    have hden : (integer q.den).toRat ≠ 0 := by
      rw [toRat]
      exact_mod_cast q.den_ne_zero
    have hleaf (n : Int) : (Expr.literal (integer n)).denote = .ok (integer n) := by
      rw [Expr.denote]
    have hinteger (n : Int) : (integer n).Canonical := trivial
    rw [tree, Expr.denote_binary (hleaf _) (hleaf _),
      Operation.settled_eq_compute _ (hinteger _) (hinteger _) (fun hop => by cases hop),
      Arithmetic.compute_div _ _ _ hden]
    have hq : (integer q.num).toRat / (integer q.den).toRat = (ratio q).toRat := by
      simp only [toRat]
      exact_mod_cast q.num_div_den
    rw [hq, ofRat_toRat h]

end Value

/-- The tree of an entry is what its evaluation is about. -/
theorem Parser.evaluate_of_parse {p : Parser} {entry : String} {e : Expr}
    (h : p.parse entry = .ok e) : p.evaluate entry = e.denote := by
  rw [← Expr.value_outcome]
  simp only [Parser.evaluate, Parser.evaluateTraced, Parser.parseTraced, h, Traced.value_bind]
  rfl

/-- An entry that cannot be read has the fault of reading it. -/
theorem Parser.evaluate_of_parse_error {p : Parser} {entry : String} {f : Fault}
    (h : p.parse entry = .error f) : p.evaluate entry = .error f := by
  rw [evaluate, evaluateTraced, parseTraced, h]
  rfl

namespace Value

/-- A parser with room for the exact text of a canonical value gives back the value. -/
theorem evaluate_text {p : Parser} {v : Value} (h : v.Canonical)
    (hheight : 2 ≤ p.options.limits.height) (hlength : v.chars.length ≤ p.options.limits.length) :
    p.evaluate v.text = .ok v := by
  have hparse : p.parse v.text = .ok (v.tree p.options) := by
    unfold Parser.parse
    simp only [text, String.toList_ofList]
    rw [if_neg (Nat.not_lt.2 hlength)]
    exact Grammar.parseLevel_of_level (line_chars h) ((height_tree_le _ v).trans hheight)
  rw [Parser.evaluate_of_parse hparse, denote_tree h]

/-- No two canonical values have the same exact text. -/
theorem text_injective {a b : Value} (ha : a.Canonical) (hb : b.Canonical)
    (h : a.text = b.text) : a = b := by
  let p : Parser := ⟨⟨[], []⟩, { limits := { height := 2, length := a.chars.length } }⟩
  have hchars : a.chars = b.chars := by
    have := congrArg String.toList h
    rwa [text, text, String.toList_ofList, String.toList_ofList] at this
  have hlength : b.chars.length ≤ a.chars.length := by rw [hchars]
  have hevala : p.evaluate a.text = .ok a := evaluate_text ha le_rfl le_rfl
  have hevalb : p.evaluate b.text = .ok b := evaluate_text hb le_rfl hlength
  rw [h, hevalb] at hevala
  exact (Except.ok.inj hevala).symm

/-- **Exact text reads back.**  Every canonical value is the value of its own text, the text
of a mantissa and a scale is a literal of their canonical value, and the text determines a
canonical value. -/
theorem text_reads_back :
    (∀ (p : Parser) (v : Value), v.Canonical → 2 ≤ p.options.limits.height →
      v.text.length ≤ p.options.limits.length → p.evaluate v.text = .ok v) ∧
    (∀ (m : Int) (s : Nat), readLiteral (Decimal.chars ⟨m, s⟩) = .ok (scaled m s)) ∧
    ∀ a b : Value, a.Canonical → b.Canonical → a.text = b.text → a = b := by
  refine ⟨fun p v h hheight hlength => evaluate_text h hheight ?_, fun m s => ?_,
    fun a b => text_injective⟩
  · rwa [text, String.length_ofList] at hlength
  · exact readLiteral_eq_ok_iff.2 (literal?_fixedPoint m s)

/-- A ratio, a decimal that is written with a trailing zero, and a parser without names. -/
theorem text_reads_back_minusTwoThirds :
    (ratio (-2 / 3)).Canonical ∧ (ratio (-2 / 3)).text = "-2/3" ∧
      Parser.evaluate ⟨⟨[], []⟩, {}⟩ (ratio (-2 / 3)).text = .ok (ratio (-2 / 3)) ∧
      readLiteral (Decimal.chars ⟨-150, 2⟩) = .ok (scaled (-150) 2) := by
  have hcanonical : (ratio (-2 / 3)).Canonical := canonical_of_three_dvd (by norm_num)
  have htext : (ratio (-2 / 3)).text = "-2/3" := by decide +kernel
  exact ⟨hcanonical, htext,
    text_reads_back.1 ⟨⟨[], []⟩, {}⟩ _ hcanonical (by decide) (by rw [htext]; decide),
    text_reads_back.2.1 (-150) 2⟩

end Value
end Reckoner
