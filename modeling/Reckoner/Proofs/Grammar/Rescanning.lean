import Mathlib
import Reckoner.Proofs.Grammar.Arguments
import Reckoner.Proofs.Grammar.Bracketing
import Reckoner.Proofs.Grammar.Scanning

/-!
# A line of tokens is scanned again

The operands that the scanner makes are legible (`legible_of_operand`): where the text of one is cut
off, the scanner makes the same operand of it (`Legible.scans`).  That text is not always the one
that was scanned, because the sign has moved to the operand, and the blanks before the parenthesis
of a call and around its arguments are gone.  Operands and operators alternate
(`alternates_of_scanFrom`), and the blank between two tokens keeps them apart, so that a line of
tokens is scanned as these tokens (`Scanner.scan_line`).
-/

namespace Reckoner
namespace Grammar

open Scanner
open Postfix (Alternates)

/-! ## Operands -/

/-- The operands that the scanner makes. -/
inductive Legible : Operand → Prop where
  | atom {negative : Bool} {c : Char} {text : List Char} (hc : isDelimiter c = false)
      (htext : ∀ after, Cuts after →
        atomLength (startsNumber c) c 0 (text ++ after) = text.length) :
      Legible (.atom (signChars negative ++ c :: text))
  | group {negative : Bool} {inside : List Char} (h : Balanced true inside) :
      Legible (.group negative inside)
  | call {negative : Bool} {c : Char} {name : List Char} {args : List (List Char)}
      (hnumber : startsNumber c = false) (hname : ∀ d ∈ c :: name, isDelimiter d = false)
      (hargs : ∀ arg ∈ args, IsArgument arg) : Legible (.call negative (c :: name) args)

theorem legible_of_operand {negative : Bool} {c : Char} {rest : List Char} {item : Lexeme}
    (hc : c = '(' ∨ isDelimiter c = false) (h : Scanner.operand negative c rest = .ok item) :
    ∃ o, item.token = some (.operand o) ∧ item.next = .operator ∧ Legible o := by
  rcases operand_cases h with ⟨inside, -, -, -, hinside, rfl⟩ |
    ⟨name, -, inside, -, hopen, hnumber, -, hname, -, hinside, rfl⟩ |
    ⟨text, -, hopen, -, -, htext, -, rfl⟩
  · exact ⟨_, rfl, rfl, .group hinside⟩
  · exact ⟨_, rfl, rfl, .call hnumber (List.forall_mem_cons.2 ⟨hc.resolve_left hopen, hname⟩)
      fun arg harg => isArgument_of_mem_split hinside harg⟩
  · exact ⟨_, rfl, rfl, .atom (hc.resolve_left hopen) htext⟩

theorem Scans.signChars {negative : Bool} {text : List Char} {tokens : List Token}
    (h : ∀ sign : Option Bool, sign.getD false = negative → Scans (.operand sign) text tokens) :
    Scans (.operand none) (signChars negative ++ text) tokens := by
  cases negative with
  | false => exact h none rfl
  | true => exact Scans.minus (h (some true) rfl)

/-- What is made of the text of a legible operand is the operand. -/
theorem Legible.scans {o : Operand} (h : Legible o) {after : List Char} {tokens : List Token}
    (hends : Ends after) (hcuts : Cuts after) (htail : Scans .operator after tokens) :
    Scans (.operand none) (o.chars ++ after) (.operand o :: tokens) := by
  cases h with
  | @atom negative c text hc htext =>
    rw [Operand.chars, List.append_assoc]
    refine Scans.signChars fun sign hsign => Scans.operand (.inr hc) ?_ htail
    rw [hsign]
    exact operand_atom (not_isDelimiter_iff.1 hc).2.2.1 (htext after hcuts) fun h =>
      absurd h hends.head?_ne
  | @group negative inside h =>
    rw [Operand.chars, List.append_assoc, List.append_assoc]
    refine Scans.signChars fun sign hsign => ?_
    have hgroup := (readsAs_group h).scans hsign hends htail
    simpa using hgroup
  | @call negative c name args hnumber hname hargs =>
    have hchars : (Operand.call negative (c :: name) args).chars ++ after = signChars negative ++
        (c :: (name ++ ([] ++ ('(' :: joinTexts [',', ' '] args ++ [')']))) ++ after) := by
      simp [Operand.chars]
    have hsplit : Arguments.split (joinTexts [',', ' '] args) = args :=
      split_joinTexts hargs
    rw [hchars]
    refine Scans.signChars fun sign hsign => ?_
    have hcall := (readsAs_call hnumber hname blank_nil (balanced_joinTexts hargs)).scans hsign
      hends htail
    rwa [hsplit] at hcall

/-! ## Lines -/

/-- Operands and operators alternate, after an operand or from one on. -/
def AlternatesFrom : Expecting → List Token → Prop
  | .operand _, tokens => Alternates tokens
  | .operator, tokens => ∀ o, Alternates (.operand o :: tokens)

theorem alternates_of_scanFrom {expecting : Expecting} {behind text : List Char}
    {tokens : List Token} (h : scanFrom expecting behind text = .ok tokens) :
    AlternatesFrom expecting tokens ∧ ∀ o, .operand o ∈ tokens → Legible o := by
  match text with
  | [] =>
    cases expecting with
    | operator =>
      rw [scanFrom_operator_nil] at h
      cases h
      exact ⟨fun o => .last o, by simp⟩
    | operand sign =>
      rw [scanFrom_operand_nil] at h
      cases h
  | c :: rest =>
    obtain ⟨item, behind', tokens', hitem, htokens, rfl⟩ := exists_of_scanFrom_cons h
    -- a blank or a sign gives no token, and an operand is expected after it if one was before
    obtain ⟨halternates, hlegible⟩ := alternates_of_scanFrom htokens
    rcases lexeme_cases hitem with ⟨-, rfl⟩ | ⟨op, -, rfl, rfl⟩ | ⟨rfl, -, rfl⟩ |
      ⟨rfl, -, rfl⟩ | ⟨sign, rfl, hc, hoperand⟩
    · exact ⟨halternates, hlegible⟩
    · exact ⟨fun o => .cons o op halternates, by simpa using hlegible⟩
    · exact ⟨halternates, hlegible⟩
    · exact ⟨halternates, hlegible⟩
    · obtain ⟨o, htoken, hnext, ho⟩ := legible_of_operand hc hoperand
      rw [hnext] at halternates
      rw [htoken]
      refine ⟨halternates o, fun o' ho' => ?_⟩
      rcases List.mem_cons.1 ho' with ho' | ho'
      · cases ho'
        exact ho
      · exact hlegible o' ho'
termination_by text.length
decreasing_by
  simp only [List.length_drop, List.length_cons]
  omega

theorem lineChars_cons (t : Token) {tokens : List Token} (h : tokens ≠ []) :
    Token.lineChars (t :: tokens) = t.chars ++ ' ' :: Token.lineChars tokens := by
  rw [Token.lineChars, List.map_cons, joinTexts_cons _ _ (by simpa using h)]
  rfl

theorem scans_lineChars {tokens : List Token} (h : Alternates tokens)
    (hlegible : ∀ o, .operand o ∈ tokens → Legible o) :
    Scans (.operand none) (Token.lineChars tokens) tokens := by
  induction h with
  | last o =>
    have hend : Scans .operator [] [] := scanFrom_operator_nil
    have hlast := (hlegible o (by simp)).scans (ends_of_blank blank_nil) cuts_nil hend
    rwa [List.append_nil] at hlast
  | @cons o op rest h ih =>
    have hrest : rest ≠ [] := by
      rintro rfl
      cases h
    rw [lineChars_cons _ (by simp), lineChars_cons _ hrest]
    have htail : Scans .operator ([' '] ++ op.symbol :: ([' '] ++ Token.lineChars rest))
        (.operator op :: rest) :=
      Scans.blank blank_space (Scans.operator (Scans.blank blank_space
        (ih fun o' ho' => hlegible o' (by simp [ho']))))
    exact (hlegible o (by simp)).scans (ends_symbol blank_space op) (cuts_blank _) htail

end Grammar

/-- **A line of tokens is scanned again.**  If a text is scanned as some tokens, then so is the line
in which these are written. -/
theorem Scanner.scan_line {entry : String} {tokens : List Token}
    (h : scan entry.toList = .ok tokens) : scan (Token.line tokens).toList = .ok tokens := by
  obtain ⟨halternates, hlegible⟩ := Grammar.alternates_of_scanFrom h
  rw [Token.line, String.toList_ofList]
  exact Grammar.scans_lineChars halternates hlegible []

/-! ## Signs, blanks and a number without its exponent -/

/-- The tokens of `-1E+2*- f (1, ,g(2,3))^( # ,b)-1e +.5`. -/
def Grammar.signedCallLine : List Token :=
  [.operand (.atom "-1E+2".toList), .operator .mul,
    .operand (.call true "f".toList ["1".toList, "g(2,3)".toList]), .operator .pow,
    .operand (.group false " # ,b".toList), .operator .sub, .operand (.atom "1e".toList),
    .operator .add, .operand (.atom ".5".toList)]

theorem Scanner.scan_line_signedCallLine :
    scan "-1E+2*- f (1, ,g(2,3))^( # ,b)-1e +.5".toList = .ok Grammar.signedCallLine ∧
      Token.line Grammar.signedCallLine = "-1E+2 * -f(1, g(2,3)) ^ ( # ,b) - 1e + .5" ∧
      scan "-1E+2 * -f(1, g(2,3)) ^ ( # ,b) - 1e + .5".toList = .ok Grammar.signedCallLine := by
  have hscan : scan "-1E+2*- f (1, ,g(2,3))^( # ,b)-1e +.5".toList =
      .ok Grammar.signedCallLine := by decide +kernel
  have hline : Token.line Grammar.signedCallLine =
      "-1E+2 * -f(1, g(2,3)) ^ ( # ,b) - 1e + .5" := by decide +kernel
  refine ⟨hscan, hline, ?_⟩
  rw [← hline]
  exact scan_line hscan

end Reckoner
