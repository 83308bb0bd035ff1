import Mathlib
import Reckoner.Proofs.Evaluation.Standard
import Reckoner.Proofs.Grammar.Handover
import Reckoner.Proofs.Grammar.Reread

/-!
# The kind of a fault tells its stage

An entry is read first and calculated afterwards.  Whatever stops the reading, from the scanner to
the limits of the parser, is a parse fault with a cause that reading can have
(`Parser.only_parse`): the grouping and the stack program get lines from the scanner, and these
they can use.  What stops the calculation is an arithmetic fault, provided that the functions are
those of the standard table: the one parse fault that a calculation can raise is that of a wrong
number of arguments, and every call in a tree that was read has an accepted number of them
(`Expr.Readable.accepts`).

`Parser.fault_stage` puts the two together: from the kind of a fault one can tell which of the two
stages an entry failed in.
-/

namespace Reckoner

/-! ## What stops the reading of an entry -/

/-- Whether reading an entry can stop for a cause.  A line that was scanned is grouped without a
fault, names are checked where a registry is made, and no operand is foreign. -/
def ParseCause.stopsReading : ParseCause → Bool
  | .adjacentOperands | .operatorWithoutOperand | .incompleteExpression => false
  | .invalidExpression | .invalidName | .duplicateConstant | .duplicateFunction => false
  | .other _ => false
  | _ => true

namespace Fault

variable {α : Type}

/-- The faults of reading an entry. -/
def StopsReading : Fault → Prop
  | .parse cause _ => cause.stopsReading = true
  | .arithmetic _ => False

theorem StopsReading.isParse {f : Fault} (h : f.StopsReading) : f.isParse = true := by
  cases f with
  | parse cause fragment => rfl
  | arithmetic cause => exact h.elim

theorem only_ofFragment {cause : ParseCause} (h : cause.stopsReading = true)
    (fragment : List Char) :
    Only StopsReading (.error (ofFragment cause fragment) : Except Fault α) := only_error h

end Fault

open Fault

/-! ## Scanning -/

namespace Scanner

theorem only_operand (negative : Bool) (c : Char) (rest : List Char) :
    Only StopsReading (operand negative c rest) := by
  unfold operand
  simp only []
  split
  · split
    · exact only_ofFragment rfl _
    · exact only_ok _
  · split
    · split
      · exact only_ofFragment rfl _
      · exact only_ok _
    · exact only_ok _

theorem only_lexeme (expecting : Expecting) (behind : List Char) (c : Char) (rest : List Char) :
    Only StopsReading (lexeme expecting behind c rest) := by
  unfold lexeme
  split
  · exact only_ok _
  · split
    · exact only_ok _
    · exact only_ok _
    · exact only_ok _
    · exact only_ofFragment rfl _
    · -- no symbol: a stray character, or the beginning of an operand
      split
      · exact only_ofFragment rfl _
      · split
        · exact only_ofFragment rfl _
        · split
          · exact only_ofFragment rfl _
          · exact only_operand _ _ _

theorem stopsReading_endFault (text : List Char) : (endFault text).StopsReading := by
  unfold endFault
  split <;> rfl

theorem only_scanFrom (expecting : Expecting) (behind text : List Char) :
    Only StopsReading (scanFrom expecting behind text) := by
  match text with
  | [] =>
    cases expecting with
    | operator =>
      rw [Grammar.scanFrom_operator_nil]
      exact only_ok []
    | operand sign =>
      rw [Grammar.scanFrom_operand_nil]
      exact only_error (stopsReading_endFault _)
  | c :: rest =>
    rw [Grammar.scanFrom_cons]
    refine only_bind (only_lexeme _ _ _ _) fun item => ?_
    exact only_bind (only_scanFrom _ _ _) fun tokens => only_ok _
termination_by text.length
decreasing_by
  simp only [List.length_drop, List.length_cons]
  omega

end Scanner

/-! ## Literals -/

namespace Value

variable {text : List Char} {cause : ParseCause}

theorem stopsReading_of_readExponent (h : readExponent text = .error cause) :
    cause.stopsReading = true := by
  unfold readExponent at h
  simp only [] at h
  split at h
  · cases h
    rfl
  · split at h
    · cases h
      rfl
    · split at h
      · cases h
        rfl
      · cases h

theorem stopsReading_of_literal? (h : literal? text = .error cause) :
    cause.stopsReading = true := by
  unfold literal? at h
  simp only [] at h
  split at h
  · cases h
    rfl
  · split at h
    · split at h <;> cases h
    · cases hexponent : readExponent _ with
      | error cause' =>
        rw [hexponent] at h
        cases h
        exact stopsReading_of_readExponent hexponent
      | ok n =>
        rw [hexponent] at h
        simp only [bind, Except.bind] at h
        split at h <;> cases h

theorem only_readLiteral (text : List Char) : Only StopsReading (readLiteral text) := by
  unfold readLiteral
  cases hread : literal? text with
  | ok v => exact only_ok v
  | error cause => exact only_ofFragment (stopsReading_of_literal? hread) text

end Value

/-! ## Parsing -/

namespace Parser

variable (p : Parser)

theorem only_parseAtom (text : List Char) : Only StopsReading (p.parseAtom text) := by
  unfold parseAtom
  split
  split
  · exact only_map (Value.only_readLiteral _)
  · split
    · split
      · exact only_ok _
      · exact only_ofFragment rfl _
    · exact only_ofFragment rfl _

theorem only_parseCall {inside : List Char → Except Fault Expr}
    (hinside : ∀ text, Only StopsReading (inside text)) (negative : Bool) (name : List Char)
    (args : List (List Char)) : Only StopsReading (p.parseCall inside negative name args) := by
  unfold parseCall
  split
  · exact only_ofFragment rfl _
  · split
    · exact only_error rfl
    · refine only_bind (only_mapM hinside args) fun es => ?_
      simp only []
      split
      · exact only_ofFragment rfl _
      · exact only_ok _

theorem only_parseOperand {inside : List Char → Except Fault Expr}
    (hinside : ∀ text, Only StopsReading (inside text)) (o : Operand) :
    Only StopsReading (p.parseOperand inside o) := by
  cases o with
  | atom text => exact p.only_parseAtom text
  | group negative text => exact only_map (hinside text)
  | call negative name args => exact p.only_parseCall hinside negative name args

/-- A level is only stopped by what stops reading, if what is inside its parentheses is: its
tokens are grouped without a fault, and their tree is too tall at worst. -/
theorem only_parseLevel (levels : Nat) (text : List Char) :
    Only StopsReading (p.parseLevel levels text) := by
  induction levels generalizing text with
  | zero => exact only_ofFragment rfl _
  | succ levels ih =>
    unfold parseLevel
    cases hscan : Scanner.scan text with
    | error f => exact only_error (Scanner.only_scanFrom _ _ _ f hscan)
    | ok tokens =>
      obtain ⟨line, hline, hbuilds⟩ :=
        (Grammar.wellFormed_of_scan hscan).alternates.exists_builds
      intro f hf
      simp only [bind, Except.bind, hline] at hf
      -- the program of the line stops at an operand, one level deeper, or at a tree too tall
      rcases hbuilds.fault _ _ f hf with ⟨o, -, ho⟩ | rfl
      · exact p.only_parseOperand ih o f ho
      · rfl

/-- Reading an entry only fails with faults of reading. -/
theorem only_parse (entry : String) : Only StopsReading (p.parse entry) := by
  unfold parse
  simp only []
  split
  · exact only_ofFragment rfl _
  · exact p.only_parseLevel _ _

/-- Reading an entry only fails with parse faults. -/
theorem onlyParse_parse (entry : String) (f : Fault) (h : p.parse entry = .error f) :
    f.isParse = true := (p.only_parse entry f h).isParse

end Parser

/-! ## Calls with an accepted number of arguments -/

namespace Expr

variable {r : Registry} {o : Options}

theorem AllReadable.of_mem {es : List Expr} {e : Expr} (h : AllReadable r o es) (he : e ∈ es) :
    e.Readable r o := by
  induction es with
  | nil => cases he
  | cons x es ih =>
    rw [AllReadable] at h
    rcases List.mem_cons.1 he with rfl | he
    · exact h.1
    · exact ih h.2 he

theorem Readable.of_mem_children {e child : Expr} (h : e.Readable r o)
    (hchild : child ∈ e.children) : child.Readable r o := by
  cases e with
  | literal v => cases hchild
  | constant name v => cases hchild
  | call options f args =>
    rw [Readable] at h
    exact h.2.2.2.2.of_mem hchild
  | binary options op left right =>
    rw [Readable] at h
    rcases List.mem_cons.1 hchild with rfl | hchild
    · exact h.2.1
    · rw [List.mem_singleton.1 hchild]
      exact h.2.2

/-- Every part of a tree over the names of a registry is one. -/
theorem Readable.of_at? {e part : Expr} {path : List Nat} (h : e.Readable r o)
    (hpart : e.at? path = some part) : part.Readable r o := by
  induction path generalizing e with
  | nil =>
    cases hpart
    exact h
  | cons i path ih =>
    obtain ⟨child, hchild, hpart⟩ := Option.bind_eq_some_iff.1 hpart
    exact ih (h.of_mem_children (List.mem_of_getElem? hchild)) hpart

/-- Every call in such a tree has as many arguments as its function accepts. -/
theorem Readable.accepts {e : Expr} (h : e.Readable r o) {path : List Nat} {options : Options}
    {f : Function} {args : List Expr} (hcall : e.at? path = some (.call options f args)) :
    f.arity.accepts args.length = true := by
  have hnode := h.of_at? hcall
  rw [Readable] at hnode
  exact hnode.2.2.2.1

end Expr

/-! ## Arithmetic faults only -/

/-- Faults are arithmetic; nothing is promised of values. -/
def Contract.arithmeticFaults : Contract where
  value _ := True
  fault f := f.isParse = false
  canonical _ := trivial
  neg _ := trivial
  arithmetic _ := rfl

namespace Parser

variable {p : Parser}

/-- Calculating a tree that was read only fails with arithmetic faults. -/
theorem keeps_of_parse (hnames : p.registry.NamesValid)
    (hfunctions : ∀ f ∈ p.registry.functions, f ∈ Standard.functions) {entry : String} {e : Expr}
    (h : p.parse entry = .ok e) :
    Contract.arithmeticFaults.Keeps (fun _ => True) e.denote := by
  have hregistry : p.registry.Keeps .arithmeticFaults p.options :=
    ⟨fun _ _ => trivial, fun f hf => Standard.keeps_functions p.options (hfunctions f hf)⟩
  exact Expr.keeps_denote hregistry e (readable_of_parse hnames h)

/-- **The kind of a fault tells its stage.**  A parser whose functions are standard ones reads an
entry or fails with a parse fault.  The calls of a tree that it has read have accepted numbers of
arguments, and evaluating the tree, fresh or with a coherent memo, never fails with a parse fault.
So an entry fails with a parse fault exactly if it cannot be read, and with an arithmetic fault
exactly if it can be read and its evaluation fails. -/
theorem fault_stage (hnames : p.registry.NamesValid)
    (hfunctions : ∀ f ∈ p.registry.functions, f ∈ Standard.functions) (entry : String) :
    (∀ f, p.parse entry = .error f → f.isParse = true) ∧
    (∀ e, p.parse entry = .ok e →
      (∀ path options f args, e.at? path = some (.call options f args) →
        f.arity.accepts args.length = true) ∧
      (∀ f, e.outcome.value = .error f → f.isParse = false) ∧
      (∀ m : Memo, m.Coherent e →
        ∀ f, (e.evaluate m).value.1 = .error f → f.isParse = false) ∧
      ∀ f, p.evaluate entry = .error f → f.isParse = false) ∧
    (∀ f, (p.evaluate entry = .error f ∧ f.isParse = true) ↔ p.parse entry = .error f) ∧
    ∀ f, (p.evaluate entry = .error f ∧ f.isParse = false) ↔
      ∃ e, p.parse entry = .ok e ∧ e.outcome.value = .error f := by
  -- evaluation, whatever its memo, has the outcome of the recursion without one
  have hdenote {e : Expr} (h : p.parse entry = .ok e) {f : Fault}
      (hf : e.denote = .error f) : f.isParse = false := by
    have hkeeps := keeps_of_parse hnames hfunctions h
    rwa [hf] at hkeeps
  refine ⟨p.onlyParse_parse entry, fun e he => ⟨?_, ?_, ?_, ?_⟩, fun f => ?_, fun f => ?_⟩
  · intro path options f args hcall
    exact (readable_of_parse hnames he).accepts hcall
  · intro f hf
    rw [Expr.value_outcome] at hf
    exact hdenote he hf
  · intro m hm f hf
    rw [(Expr.evaluate_spec e m hm).1] at hf
    exact hdenote he hf
  · intro f hf
    rw [evaluate_of_parse he] at hf
    exact hdenote he hf
  · constructor
    · rintro ⟨hf, hparse⟩
      cases he : p.parse entry with
      | error f' =>
        rw [evaluate_of_parse_error he] at hf
        cases hf
        rfl
      | ok e =>
        rw [evaluate_of_parse he] at hf
        rw [hdenote he hf] at hparse
        cases hparse
    · intro hf
      exact ⟨evaluate_of_parse_error hf, p.onlyParse_parse entry f hf⟩
  · constructor
    · rintro ⟨hf, harithmetic⟩
      cases he : p.parse entry with
      | error f' =>
        rw [evaluate_of_parse_error he] at hf
        cases hf
        rw [p.onlyParse_parse entry f he] at harithmetic
        cases harithmetic
      | ok e =>
        rw [evaluate_of_parse he, ← Expr.value_outcome] at hf
        exact ⟨e, rfl, hf⟩
    · rintro ⟨e, he, hf⟩
      rw [Expr.value_outcome] at hf
      rw [evaluate_of_parse he]
      exact ⟨hf, hdenote he hf⟩

/-- `1/0` can be read, so its fault is not one of reading. -/
theorem fault_stage_oneOverZero :
    standard.registry.NamesValid ∧ (∀ f ∈ standard.registry.functions, f ∈ Standard.functions) ∧
      standard.evaluate "1/0" = .error .divisionByZero ∧ Fault.divisionByZero.isParse = false := by
  let tree : Expr := .binary {} .div (.literal (.integer 1)) (.literal (.integer 0))
  have hdivisor : Grammar.Chain standard.registry {} (Grammar.Level standard.registry {} 256)
      ([] ++ Operator.div.symbol :: ([] ++ (Numeral.signed 0 ++ [])))
      [(.div, .literal (.integer 0))] :=
    .cons Grammar.blank_nil Grammar.blank_nil (Value.signed_numeral 0) .nil
  have hlevel : Grammar.Level standard.registry {} 257 "1/0".toList tree :=
    (Grammar.Line.intro Grammar.blank_nil (Value.signed_numeral 1) hdivisor
      Grammar.blank_nil).cast (by decide +kernel)
  have hparse : standard.parse "1/0" = .ok tree :=
    Grammar.parseLevel_of_level hlevel (by decide)
  have hvalue : tree.outcome.value = .error .divisionByZero := by
    rw [Expr.value_outcome]
    decide +kernel
  have hnames : standard.registry.NamesValid := Registry.namesValid_standard {}
  have hfunctions : ∀ f ∈ standard.registry.functions, f ∈ Standard.functions :=
    fun f hf => List.mem_mergeSort.1 hf
  have hstage := fault_stage hnames hfunctions "1/0"
  exact ⟨hnames, hfunctions, (hstage.2.2.2 .divisionByZero).2 ⟨tree, hparse, hvalue⟩⟩

end Parser
end Reckoner
