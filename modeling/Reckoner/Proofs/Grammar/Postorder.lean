import Mathlib
import Reckoner.Proofs.Grammar.Bracketing

/-!
# Which lines are postfix forms

`Postfix.build` runs any list of tokens as a stack program, also one that no grouping made.  From
its beginning a line falls into the postfix forms of some bracketings: either all of it does, or it
comes to an operator with fewer than two of them before it (`exists_forest`).  As far as it does the
program has one tree on its stack for each (`run_forest`), so it lacks an operand, leaves one over,
or ends with a single tree.  Counting tells these apart: a postfix form has one operand more than
it has operators, and more operands than operators from its first token on
(`Bracketing.counted_postorder`).

`build_postorder_iff` puts this together for operands that depend on a state and change it.
-/

namespace Reckoner

/-- The operations of a tree, every operator behind its two operands.  What is no operation stands
as it is. -/
def Expr.postorder : Expr → List (Expr ⊕ Operator)
  | .binary _ op l r => l.postorder ++ r.postorder ++ [.inr op]
  | e => [.inl e]

/-- A tree of height one is no operation. -/
theorem Expr.postorder_of_height {e : Expr} (h : e.height = 1) : e.postorder = [.inl e] := by
  cases e with
  | literal v => rfl
  | constant name v => rfl
  | call options f args => rfl
  | binary options op l r =>
    have hl := l.height_pos
    rw [Expr.height] at h
    omega

namespace Postfix

/-! ## Counting -/

/-- The operators of a line. -/
def operators (tokens : List Token) : List Operator :=
  tokens.filterMap fun
    | .operand _ => none
    | .operator op => some op

theorem operands_append (xs ys : List Token) : operands (xs ++ ys) = operands xs ++ operands ys :=
  List.filterMap_append

theorem operators_append (xs ys : List Token) :
    operators (xs ++ ys) = operators xs ++ operators ys :=
  List.filterMap_append

/-- From its first token on a line holds more operands than operators, and all of it exactly one
more. -/
structure Counted (line : List Token) : Prop where
  ahead : ∀ start, start <+: line → start ≠ [] →
    (operators start).length < (operands start).length
  total : (operands line).length = (operators line).length + 1

/-- The beginning of two lists is a beginning of the first or reaches into the second. -/
theorem prefix_append_cases {α : Type} {start xs ys : List α} (h : start <+: xs ++ ys) :
    start <+: xs ∨ ∃ rest, start = xs ++ rest ∧ rest <+: ys := by
  obtain ⟨after, h⟩ := h
  rcases List.append_eq_append_iff.1 h with ⟨rest, rfl, -⟩ | ⟨rest, rfl, rfl⟩
  · exact .inl (List.prefix_append _ _)
  · exact .inr ⟨rest, rfl, List.prefix_append _ _⟩

namespace Bracketing

theorem length_operands_postorder (t : Bracketing) :
    (operands t.postorder).length = (operators t.postorder).length + 1 := by
  induction t with
  | leaf o => rfl
  | node op l r ihl ihr =>
    have hoperands : operands [.operator op] = [] := rfl
    have hoperators : operators [.operator op] = [op] := rfl
    simp only [postorder, operands_append, operators_append, List.length_append, ihl, ihr,
      hoperands, hoperators, List.length_nil, List.length_singleton]
    omega

theorem counted_postorder (t : Bracketing) : Counted t.postorder := by
  refine ⟨fun start hstart hne => ?_, t.length_operands_postorder⟩
  induction t generalizing start with
  | leaf o =>
    rcases List.prefix_cons_iff.1 hstart with rfl | ⟨rest, rfl, hrest⟩
    · exact absurd rfl hne
    · rw [List.prefix_nil.1 hrest]
      exact Nat.zero_lt_one
  | node op l r ihl ihr =>
    have hl := l.length_operands_postorder
    rw [postorder, List.append_assoc] at hstart
    rcases prefix_append_cases hstart with hstart | ⟨rest, rfl, hrest⟩
    · exact ihl start hstart hne
    rcases prefix_append_cases hrest with hrest | ⟨last, rfl, hlast⟩
    · -- all of the left form and a part of the right one
      rw [operands_append, operators_append, List.length_append, List.length_append, hl]
      rcases eq_or_ne rest [] with rfl | hrestne
      · exact Nat.lt_succ_self _
      · have hr := ihr rest hrest hrestne
        omega
    · have hr := r.length_operands_postorder
      have hoperator : (operators last).length ≤ 1 := by
        have hlength := hlast.length_le
        exact (List.length_filterMap_le _ _).trans hlength
      simp only [operands_append, operators_append, List.length_append, hl, hr]
      omega

end Bracketing

/-! ## Falling into postfix forms -/

open Bracketing

/-- The postfix forms of some bracketings, one after the other. -/
def forest (ts : List Bracketing) : List Token := ts.flatMap postorder

theorem length_operands_forest (ts : List Bracketing) :
    (operands (forest ts)).length = (operators (forest ts)).length + ts.length := by
  induction ts with
  | nil => rfl
  | cons t ts ih =>
    rw [forest, List.flatMap_cons, operands_append, operators_append, List.length_append,
      List.length_append, t.length_operands_postorder, List.length_cons]
    rw [forest] at ih
    omega

/-- From its beginning a line falls into postfix forms, to its end or to an operator that lacks an
operand. -/
theorem exists_forest (line : List Token) : (∃ ts, line = forest ts) ∨
    ∃ ts op rest, ts.length ≤ 1 ∧ line = forest ts ++ .operator op :: rest := by
  induction line using List.reverseRecOn with
  | nil => exact .inl ⟨[], rfl⟩
  | append_singleton line token ih =>
    rcases ih with ⟨ts, rfl⟩ | ⟨ts, op, rest, hts, rfl⟩
    · cases token with
      | operand o => exact .inl ⟨ts ++ [.leaf o], by simp [forest, postorder]⟩
      | operator op =>
        -- the operator takes the last two forms, if there are two
        rcases List.eq_nil_or_concat ts with rfl | ⟨ts, r, rfl⟩
        · exact .inr ⟨[], op, [], Nat.zero_le 1, rfl⟩
        rcases List.eq_nil_or_concat ts with rfl | ⟨ts, l, rfl⟩
        · exact .inr ⟨[r], op, [], Nat.le_refl 1, rfl⟩
        · exact .inl ⟨ts ++ [.node op l r], by simp [forest, postorder]⟩
    · exact .inr ⟨ts, op, rest ++ [token], hts, by simp⟩

/-- Lines that count like a postfix form are postfix forms. -/
theorem exists_postorder_iff {line : List Token} :
    (∃ t : Bracketing, t.postorder = line) ↔ Counted line := by
  constructor
  · rintro ⟨t, rfl⟩
    exact t.counted_postorder
  · intro h
    rcases exists_forest line with ⟨ts, rfl⟩ | ⟨ts, op, rest, hts, rfl⟩
    · have hlength := length_operands_forest ts
      rw [h.total] at hlength
      obtain ⟨t, rfl⟩ := List.length_eq_one_iff.1 (Nat.add_left_cancel hlength).symm
      exact ⟨t, by simp [forest]⟩
    · -- the operator makes the operators catch up
      have hstart : forest ts ++ [.operator op] <+: forest ts ++ .operator op :: rest := by
        simp
      have hahead := h.ahead _ hstart (by simp)
      have hoperands : operands [.operator op] = [] := rfl
      have hoperators : operators [.operator op] = [op] := rfl
      simp only [operands_append, operators_append, List.length_append, hoperands, hoperators,
        List.length_nil, List.length_singleton, length_operands_forest] at hahead
      omega

/-! ## Running the stack program -/

section Run

variable {σ : Type} {options : Options} {resolve : Operand → StateM σ Expr} {line : List Token}

/-- The answer to a token: what the operand stands for, or the operator itself. -/
def answer (resolve : Operand → StateM σ Expr) : Token → StateM σ (Expr ⊕ Operator)
  | .operand o => .inl <$> resolve o
  | .operator op => pure (.inr op)

/-- The stack program on operands that depend on a state and change it. -/
def runBuild (options : Options) (resolve : Operand → StateM σ Expr) (line : List Token) (s : σ) :
    Except Fault Expr × σ :=
  (build options (fun o => (liftM (resolve o) : ExceptT Fault (StateM σ) Expr)) line).run.run s

variable (hresolve : ∀ o s, ((resolve o).run s).1.height = 1)

include hresolve

namespace Bracketing

/-- A tree on leaves is not taller than its postfix form is long. -/
theorem height_tree_le (t : Bracketing) (s : σ) :
    ((t.tree options resolve).run s).1.height ≤ t.postorder.length := by
  induction t generalizing s with
  | leaf o => exact (hresolve o s).le
  | node op l r ihl ihr =>
    have hl := ihl s
    have hr := ihr ((l.tree options resolve).run s).2
    show (Expr.binary options op ((l.tree options resolve).run s).1
      ((r.tree options resolve).run ((l.tree options resolve).run s).2).1).height ≤ _
    rw [Expr.height, postorder, List.length_append, List.length_append, List.length_singleton]
    omega

/-- The answers to a postfix form, asked for from left to right, are its tree in postorder. -/
theorem mapM_answer (t : Bracketing) (s : σ) : (t.postorder.mapM (answer resolve)).run s =
    (((t.tree options resolve).run s).1.postorder, ((t.tree options resolve).run s).2) := by
  induction t generalizing s with
  | leaf o =>
    show ([Sum.inl ((resolve o).run s).1], ((resolve o).run s).2) = _
    rw [← Expr.postorder_of_height (hresolve o s)]
    rfl
  | node op l r ihl ihr =>
    simp only [postorder, List.mapM_append, StateT.run_bind, ihl, ihr]
    rfl

end Bracketing

variable (line) in
/-- Postfix forms leave their trees on the stack, the last one on top. -/
theorem run_forest {ts : List Bracketing} (hlimit : (forest ts).length ≤ options.limits.height)
    (stack : List Expr) (s : σ) :
    ∃ es s', es.length = ts.length ∧
      ((forest ts).foldlM (step options
        (fun o => (liftM (resolve o) : ExceptT Fault (StateM σ) Expr)) line) stack).run.run s =
        (.ok (es ++ stack), s') := by
  induction ts generalizing stack s with
  | nil => exact ⟨[], s, rfl, rfl⟩
  | cons t ts ih =>
    rw [forest, List.flatMap_cons, List.length_append] at hlimit
    have htree : ((t.tree options resolve).run s).1.height ≤ options.limits.height :=
      (t.height_tree_le hresolve s).trans (Nat.le_of_add_right_le hlimit)
    obtain ⟨es, s', hlength, hrest⟩ := ih (Nat.le_of_add_left_le hlimit)
      (((t.tree options resolve).run s).1 :: stack) ((t.tree options resolve).run s).2
    refine ⟨es ++ [((t.tree options resolve).run s).1], s', by simp [hlength], ?_⟩
    have hpush : ((· :: stack) <$> t.assemble options (fun o =>
        (liftM (resolve o) : ExceptT Fault (StateM σ) Expr)) line).run.run s =
          (.ok (((t.tree options resolve).run s).1 :: stack),
            ((t.tree options resolve).run s).2) := by
      rw [map_eq_pure_bind, run_bind_of_ok (run_assemble htree)]
      rfl
    rw [forest, List.flatMap_cons, List.foldlM_append, run_postorder fun _ _ => rfl,
      run_bind_of_ok hpush, List.append_assoc]
    exact hrest

/-- A postfix form makes its tree. -/
theorem runBuild_postorder {t : Bracketing}
    (hlimit : t.postorder.length ≤ options.limits.height) (s : σ) :
    runBuild options resolve t.postorder s =
      (.ok ((t.tree options resolve).run s).1, ((t.tree options resolve).run s).2) := by
  rw [runBuild, build_postorder fun _ _ => rfl]
  exact run_assemble ((t.height_tree_le hresolve s).trans hlimit)

/-- What is no postfix form lacks an operand or leaves one over. -/
theorem runBuild_of_not_exists (hlimit : line.length ≤ options.limits.height)
    (hline : ¬ ∃ t : Bracketing, t.postorder = line) (s : σ) :
    (runBuild options resolve line s).1 = .error (invalid line) := by
  rcases exists_forest line with ⟨ts, rfl⟩ | ⟨ts, op, rest, hts, rfl⟩
  · obtain ⟨es, s', hlength, hrun⟩ := run_forest (forest ts) hresolve hlimit [] s
    have hts : ts.length ≠ 1 := by
      intro hone
      obtain ⟨t, rfl⟩ := List.length_eq_one_iff.1 hone
      exact hline ⟨t, by simp [forest]⟩
    rw [runBuild, build, run_bind_of_ok hrun]
    rcases es with _ | ⟨e, _ | ⟨e', es⟩⟩
    · rfl
    · exact absurd hlength.symm hts
    · rfl
  · rw [List.length_append] at hlimit
    obtain ⟨es, s', hlength, hrun⟩ := run_forest (forest ts ++ .operator op :: rest)
      hresolve (Nat.le_of_add_right_le hlimit) [] s
    rw [← hlength] at hts
    rw [runBuild, build, List.foldlM_append, bind_assoc, run_bind_of_ok hrun]
    rcases es with _ | ⟨e, _ | ⟨e', es⟩⟩
    · rfl
    · rfl
    · simp at hts

end Run

/-- **Stack programs that leave a tree.**  Where the limit leaves room for a line and its operands
stand for leaves, it makes a tree exactly if it is the postfix form of some bracketing, that is, if
it holds more operands than operators from its first token on and in the end exactly one more.
The tree in postorder then is the line with every operand answered for, from left to right and each
once.  Any other line is a fault about the whole line. -/
theorem build_postorder_iff {σ : Type} (options : Options) (resolve : Operand → StateM σ Expr)
    (hresolve : ∀ o s, ((resolve o).run s).1.height = 1) (line : List Token)
    (hlimit : line.length ≤ options.limits.height) (s : σ) :
    let result := runBuild options resolve line s
    ((∃ e, result.1 = .ok e) ↔ ∃ t : Bracketing, t.postorder = line) ∧
    ((∃ t : Bracketing, t.postorder = line) ↔ Counted line) ∧
    (∀ e, result.1 = .ok e →
      (line.mapM (answer resolve)).run s = (e.postorder, result.2)) ∧
    ((¬ ∃ t : Bracketing, t.postorder = line) →
      result.1 = .error (.parse .invalidExpression (Token.line line))) := by
  intro result
  have hfault := runBuild_of_not_exists hresolve hlimit
  refine ⟨⟨fun ⟨e, he⟩ => ?_, fun ⟨t, ht⟩ => ?_⟩, exists_postorder_iff, fun e he => ?_,
    fun hline => hfault hline s⟩
  · by_contra hline
    rw [hfault hline s] at he
    cases he
  · subst ht
    exact ⟨_, congrArg Prod.fst (runBuild_postorder hresolve hlimit s)⟩
  · by_cases hline : ∃ t : Bracketing, t.postorder = line
    · obtain ⟨t, rfl⟩ := hline
      have hresult : result = _ := runBuild_postorder hresolve hlimit s
      rw [hresult] at he ⊢
      cases he
      exact t.mapM_answer hresolve s
    · rw [hfault hline s] at he
      cases he

/-- `1 2 3 * -` with operands that note that they were asked for, and the same line one operand
short. -/
theorem build_postorder_iff_difference_of_product :
    let one : Operand := .atom ['1']
    let two : Operand := .atom ['2']
    let three : Operand := .atom ['3']
    let resolve (o : Operand) : StateM (List Operand) Expr := fun asked =>
      (.constant (String.ofList o.chars) 0, asked ++ [o])
    let leaf (name : String) : Expr := .constant name 0
    let line : List Token :=
      [.operand one, .operand two, .operand three, .operator .mul, .operator .sub]
    let short : List Token := [.operand one, .operand two, .operator .mul, .operator .sub]
    runBuild {} resolve line [] =
        (.ok (.binary {} .sub (leaf "1") (.binary {} .mul (leaf "2") (leaf "3"))),
          [one, two, three]) ∧
      Counted line ∧
      (runBuild {} resolve short []).1 = .error (.parse .invalidExpression "1 2 * -") := by
  intro one two three resolve leaf line short
  have hresolve : ∀ o s, ((resolve o).run s).1.height = 1 := fun o s => rfl
  have hrun : runBuild {} resolve line [] =
      (.ok (.binary {} .sub (leaf "1") (.binary {} .mul (leaf "2") (leaf "3"))),
        [one, two, three]) := rfl
  have hline := build_postorder_iff {} resolve hresolve line (by decide) []
  have hshort := build_postorder_iff {} resolve hresolve short (by decide) []
  refine ⟨hrun, hline.2.1.1 (hline.1.1 ⟨_, congrArg Prod.fst hrun⟩), hshort.2.2.2 fun h => ?_⟩
  exact absurd (hshort.2.1.1 h).total (by decide)

end Postfix
end Reckoner
