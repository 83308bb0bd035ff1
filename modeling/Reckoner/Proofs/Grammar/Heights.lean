import Mathlib
import Reckoner.Proofs.Grammar.Parsing

/-!
# How tall an accepted tree can be

Every operation and every call that is written is measured against the height limit when it
is built (`tree_or_operand_of_build`, `height_le_of_parseCall`).  The sign before a constant
or before a group is put on afterwards and is not measured: `-e` is accepted under a limit of
one, with a tree of height two (`parse_above_limit`).  No operation can stand above such a
tree without being measured, so an accepted tree is one within the limit under a tower of
negations, of which there are no more than levels of parentheses (`parse_eq_tower`).
-/

namespace Reckoner

namespace Expr

/-! ## Subtrees -/

/-- No part of a tree is taller than the tree. -/
theorem height_le_of_at? {e part : Expr} {path : List Nat} (h : e.at? path = some part) :
    part.height ≤ e.height := by
  induction path generalizing e with
  | nil =>
    cases h
    exact le_rfl
  | cons i path ih =>
    obtain ⟨child, hchild, hpart⟩ := Option.bind_eq_some_iff.1 h
    exact (ih hpart).trans (height_lt_of_mem_children (List.mem_of_getElem? hchild)).le

/-! ## Towers of negations -/

/-- The tree within the height limit under at most `k` negations. -/
def IsTower (o : Options) (k : Nat) (e : Expr) : Prop :=
  ∃ n ≤ k, ∃ core : Expr, core.height ≤ o.limits.height ∧ e = (negate o)^[n] core

theorem isTower_of_height_le {o : Options} {k : Nat} {e : Expr} (h : e.height ≤ o.limits.height) :
    e.IsTower o k :=
  ⟨0, Nat.zero_le k, e, h, rfl⟩

theorem IsTower.withSign {o : Options} {k : Nat} {e : Expr} (h : e.IsTower o k)
    (negative : Bool) : (e.withSign o negative).IsTower o (k + 1) := by
  obtain ⟨n, hn, core, hcore, rfl⟩ := h
  cases negative with
  | false => exact ⟨n, hn.trans (Nat.le_succ k), core, hcore, rfl⟩
  | true => exact ⟨n + 1, Nat.succ_le_succ hn, core, hcore, (Function.iterate_succ_apply' ..).symm⟩

theorem IsTower.height_le {o : Options} {k : Nat} {e : Expr} (h : e.IsTower o k) :
    e.height ≤ o.limits.height + k := by
  obtain ⟨n, hn, core, hcore, rfl⟩ := h
  have hgrow : ((negate o)^[n] core).height ≤ core.height + n := by
    induction n with
    | zero => exact le_rfl
    | succ n ih =>
      rw [Function.iterate_succ_apply']
      have := Grammar.height_negate_le o ((negate o)^[n] core)
      have := ih (by omega)
      omega
  omega

end Expr

/-! ## Building a line -/

namespace Postfix

variable {options : Options} {resolve : Operand → Except Fault Expr}

/-- The tree was measured, or it is what an operand stands for. -/
def MeasuredOrOperand (options : Options) (resolve : Operand → Except Fault Expr) (e : Expr) :
    Prop :=
  e.height ≤ options.limits.height ∨ ∃ o, resolve o = .ok e

theorem step_measuredOrOperand {line : List Token} {token : Token} {stack stack' : List Expr}
    (h : step options resolve line stack token = .ok stack')
    (hstack : ∀ e ∈ stack, MeasuredOrOperand options resolve e) :
    ∀ e ∈ stack', MeasuredOrOperand options resolve e := by
  cases token with
  | operand o =>
    obtain ⟨x, hx, h⟩ := ok_of_bind_eq_ok h
    cases h
    exact List.forall_mem_cons.2 ⟨.inr ⟨o, hx⟩, hstack⟩
  | operator op =>
    match stack with
    | [] => cases h
    | [right] => cases h
    | right :: left :: stack =>
      rw [Grammar.step_operator] at h
      split at h
      · cases h
      · rename_i hheight
        cases h
        have hrest := (List.forall_mem_cons.1 (List.forall_mem_cons.1 hstack).2).2
        exact List.forall_mem_cons.2 ⟨.inl (Nat.not_lt.1 hheight), hrest⟩

theorem run_measuredOrOperand {line tokens : List Token} {stack stack' : List Expr}
    (h : tokens.foldlM (step options resolve line) stack = .ok stack')
    (hstack : ∀ e ∈ stack, MeasuredOrOperand options resolve e) :
    ∀ e ∈ stack', MeasuredOrOperand options resolve e := by
  induction tokens generalizing stack with
  | nil =>
    cases h
    exact hstack
  | cons token tokens ih =>
    rw [List.foldlM_cons] at h
    obtain ⟨next, hnext, h⟩ := ok_of_bind_eq_ok h
    exact ih h (step_measuredOrOperand hnext hstack)

/-- The tree of a line is within the limit, or it is what the only operand stands for. -/
theorem tree_or_operand_of_build {line : List Token} {e : Expr}
    (h : build options resolve line = .ok e) : MeasuredOrOperand options resolve e := by
  obtain ⟨stack, hrun, hstack⟩ := ok_of_bind_eq_ok h
  split at hstack
  · cases hstack
    exact run_measuredOrOperand hrun (by simp) _ (List.mem_singleton_self e)
  · cases hstack

end Postfix

namespace Parser

variable {p : Parser}

/-! ## Operands -/

/-- An atom is a leaf with a sign. -/
theorem isTower_of_parseAtom (hlimit : 1 ≤ p.options.limits.height) {text : List Char} {e : Expr}
    (h : p.parseAtom text = .ok e) (k : Nat) : e.IsTower p.options (k + 1) := by
  unfold parseAtom at h
  split at h
  split at h
  · obtain ⟨v, -, rfl⟩ := ok_of_map_eq_ok h
    exact Expr.isTower_of_height_le (by rw [Expr.height]; exact hlimit)
  · split at h
    · split at h
      · cases h
        exact (Expr.isTower_of_height_le (by rw [Expr.height]; exact hlimit)).withSign _
      · cases h
    · cases h

/-- A call is measured with its sign. -/
theorem height_le_of_parseCall {inside : List Char → Except Fault Expr} {negative : Bool}
    {name : List Char} {args : List (List Char)} {e : Expr}
    (h : p.parseCall inside negative name args = .ok e) :
    e.height ≤ p.options.limits.height := by
  unfold parseCall at h
  split at h
  · cases h
  · split at h
    · cases h
    · obtain ⟨args, -, h⟩ := ok_of_bind_eq_ok h
      simp only [] at h
      split at h
      · cases h
      · rename_i hheight
        cases h
        exact Nat.not_lt.1 hheight

theorem isTower_of_parseOperand (hlimit : 1 ≤ p.options.limits.height) {k : Nat}
    {inside : List Char → Except Fault Expr}
    (hinside : ∀ t e, inside t = .ok e → e.IsTower p.options k) {o : Operand}
    {e : Expr} (h : p.parseOperand inside o = .ok e) :
    e.IsTower p.options (k + 1) := by
  cases o with
  | atom text => exact isTower_of_parseAtom hlimit h k
  | group negative text =>
    obtain ⟨x, hx, rfl⟩ := ok_of_map_eq_ok h
    exact (hinside _ _ hx).withSign negative
  | call negative name args => exact Expr.isTower_of_height_le (height_le_of_parseCall h)

/-! ## Texts -/

/-- One negation at most comes with every level of parentheses. -/
theorem isTower_of_parseLevel (hlimit : 1 ≤ p.options.limits.height) {levels : Nat}
    {text : List Char} {e : Expr} (h : p.parseLevel levels text = .ok e) :
    e.IsTower p.options levels := by
  induction levels generalizing text e with
  | zero => cases h
  | succ levels ih =>
    obtain ⟨tokens, -, h⟩ := ok_of_bind_eq_ok h
    obtain ⟨line, -, h⟩ := ok_of_bind_eq_ok h
    rcases Postfix.tree_or_operand_of_build h with hheight | ⟨o, ho⟩
    · exact Expr.isTower_of_height_le hheight
    · exact isTower_of_parseOperand hlimit (fun t e ht => ih ht) ho

/-- **Accepted trees are within the limit up to negations.**  The tree of an entry is a tree
all of whose parts are within the height limit, under a tower of negations: at most one for
the entry itself and one for every level of parentheses that the depth limit allows. -/
theorem parse_eq_tower (hlimit : 1 ≤ p.options.limits.height) {entry : String} {e : Expr}
    (h : p.parse entry = .ok e) :
    (∃ n ≤ p.options.limits.depth + 1, ∃ core : Expr, e = (Expr.negate p.options)^[n] core ∧
      ∀ path part, core.at? path = some part → part.height ≤ p.options.limits.height) ∧
    ∀ path part, e.at? path = some part →
      part.height ≤ p.options.limits.height + p.options.limits.depth + 1 := by
  have htower : e.IsTower p.options (p.options.limits.depth + 1) := by
    unfold parse at h
    simp only [] at h
    split at h
    · cases h
    · exact isTower_of_parseLevel hlimit h
  have hheight := htower.height_le
  obtain ⟨n, hn, core, hcore, heq⟩ := htower
  exact ⟨⟨n, hn, core, heq, fun path part hpart => (Expr.height_le_of_at? hpart).trans hcore⟩,
    fun path part hpart => (Expr.height_le_of_at? hpart).trans hheight⟩

/-! ## A sign above the limit -/

/-- A parser that knows the constant `e` and accepts no tree taller than a leaf. -/
def leafParser : Parser := ⟨⟨[⟨"e", 3⟩], []⟩, { limits := { height := 1 } }⟩

/-- The tree that it reads in `-e`. -/
def negatedLeaf : Expr := (Expr.constant "e" 3).negate leafParser.options

theorem scan_minus_e : Scanner.scan "-e".toList = .ok [.operand (.atom ['-', 'e'])] := by
  have hsign : Scanner.lexeme (.operand none) [] '-' ['e'] =
      .ok ⟨none, .operand (some true), 0⟩ := rfl
  have hatom : Scanner.lexeme (.operand (some true)) ['-'] 'e' [] =
      .ok (.ofOperand (.atom ['-', 'e']) 0) := rfl
  show Scanner.scanFrom (.operand none) [] ['-', 'e'] = _
  rw [Grammar.scanFrom_cons, hsign]
  show (Scanner.scanFrom (.operand (some true)) ['-'] ['e'] >>= _) = _
  rw [Grammar.scanFrom_cons, hatom]
  show ((Scanner.scanFrom .operator _ [] >>= _) >>= _) = _
  rw [Grammar.scanFrom_operator_nil]
  rfl

theorem parse_leafParser : leafParser.parse "-e" = .ok negatedLeaf := by
  have hconstant : leafParser.registry.constant? (String.ofList ['e']) = some ⟨"e", 3⟩ := by
    decide +kernel
  have hatom : leafParser.parseAtom ['-', 'e'] = .ok negatedLeaf := by
    unfold parseAtom
    simp only [hconstant]
    rfl
  show leafParser.parseLevel 257 "-e".toList = _
  rw [parseLevel, scan_minus_e]
  show ((leafParser.parseAtom ['-', 'e'] >>= _) >>= _) >>= _ = _
  rw [hatom]
  rfl

/-- The height limit does not hold of every accepted tree: the sign of a constant is not
measured. -/
theorem parse_above_limit :
    ∃ (p : Parser) (entry : String) (e : Expr), 1 ≤ p.options.limits.height ∧
      p.parse entry = .ok e ∧ p.options.limits.height < e.height :=
  ⟨leafParser, "-e", _, by decide, parse_leafParser, by decide⟩

theorem parse_eq_tower_leafParser :
    1 ≤ leafParser.options.limits.height ∧
      leafParser.parse "-e" = .ok negatedLeaf ∧
      ∃ n ≤ 257, ∃ core : Expr, negatedLeaf = (Expr.negate leafParser.options)^[n] core ∧
        ∀ path part, core.at? path = some part → part.height ≤ 1 := by
  have hlimit : 1 ≤ leafParser.options.limits.height := by decide
  exact ⟨hlimit, parse_leafParser, (parse_eq_tower hlimit parse_leafParser).1⟩

end Parser
end Reckoner
