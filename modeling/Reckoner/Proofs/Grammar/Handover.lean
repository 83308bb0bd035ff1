import Mathlib
import Reckoner.Proofs.Grammar.Rescanning

/-!
# What the scanner hands over

Three passes read a line: the scanner makes its tokens, `Postfix.ofTokens` moves the operators
behind their operands, and `Postfix.build` runs what results as a stack program.  The later two
check what they are given.  What the scanner gives them always passes:

* its operands and operators alternate, the groups are balanced, and the arguments of the calls are
  balanced texts without outer blanks, none of them blank (`wellFormed_of_scan`);
* such tokens have a postfix form, and its stack program never lacks an operand nor leaves one over
  (`Postfix.Alternates.exists_builds`): it fails where an operand does, or with a tree that is too
  tall.

The invariant of the scanner is `alternates_of_scanFrom`, and the depth of the stack is told by a
bracketing of the line (`Postfix.Bracketing.build_postorder`).
-/

namespace Reckoner

/-! ## Faults of a kind -/

namespace Fault

variable {α β : Type} {Q : Fault → Prop}

/-- If there is a fault, it is of the kind `Q`. -/
def Only (Q : Fault → Prop) (x : Except Fault α) : Prop := ∀ f, x = .error f → Q f

theorem only_ok (a : α) : Only Q (.ok a) := by
  intro f h
  cases h

theorem only_error {f : Fault} (h : Q f) : Only Q (.error f : Except Fault α) := by
  rintro f' ⟨⟩
  exact h

theorem only_bind {x : Except Fault α} {g : α → Except Fault β} (hx : Only Q x)
    (hg : ∀ a, Only Q (g a)) : Only Q (x >>= g) := by
  cases x with
  | ok a => exact hg a
  | error f => exact only_error (hx f rfl)

theorem only_map {x : Except Fault α} {g : α → β} (hx : Only Q x) : Only Q (g <$> x) := by
  rw [map_eq_pure_bind]
  exact only_bind hx fun a => only_ok (g a)

theorem only_mapM {g : α → Except Fault β} (hg : ∀ a, Only Q (g a)) (xs : List α) :
    Only Q (xs.mapM g) := by
  induction xs with
  | nil => exact only_ok []
  | cons x xs ih =>
    rw [List.mapM_cons]
    exact only_bind (hg x) fun b => only_bind ih fun bs => only_ok (b :: bs)

/-- The same of a calculation with a state, from whatever state it starts. -/
def RunsOnly {σ : Type} (Q : Fault → Prop) (x : ExceptT Fault (StateM σ) α) : Prop :=
  ∀ f s s', x.run.run s = (.error f, s') → Q f

theorem runsOnly_pure {σ : Type} (a : α) :
    RunsOnly Q (pure a : ExceptT Fault (StateM σ) α) := by
  rintro f s s' ⟨⟩

theorem runsOnly_throw {σ : Type} {f : Fault} (h : Q f) :
    RunsOnly Q (throwThe Fault f : ExceptT Fault (StateM σ) α) := by
  rintro f' s s' ⟨⟩
  exact h

theorem runsOnly_bind {σ : Type} {x : ExceptT Fault (StateM σ) α}
    {g : α → ExceptT Fault (StateM σ) β} (hx : RunsOnly Q x) (hg : ∀ a, RunsOnly Q (g a)) :
    RunsOnly Q (x >>= g) := by
  intro f s s' h
  rw [ExceptT.run_bind, StateT.run_bind] at h
  cases hrun : x.run.run s with
  | mk result after =>
    rw [hrun] at h
    cases result with
    | ok a => exact hg a f after s' h
    | error f' =>
      cases h
      exact hx f s after hrun

end Fault

open Fault

/-! ## Tokens -/

namespace Postfix

variable {tokens : List Token}

theorem Alternates.exists_head (h : Alternates tokens) :
    ∃ o, tokens.head? = some (.operand o) := by
  cases h with
  | last o => exact ⟨o, rfl⟩
  | cons o op h => exact ⟨o, rfl⟩

theorem Alternates.exists_getLast (h : Alternates tokens) :
    ∃ o, tokens.getLast? = some (.operand o) := by
  induction h with
  | last o => exact ⟨o, rfl⟩
  | @cons o op rest h ih =>
    obtain ⟨last, hlast⟩ := ih
    refine ⟨last, ?_⟩
    rw [List.getLast?_cons, List.getLast?_cons, hlast]
    rfl

end Postfix

namespace Grammar

/-- Tokens as the scanner makes them. -/
structure WellFormed (tokens : List Token) : Prop where
  alternates : Postfix.Alternates tokens
  first : ∃ o, tokens.head? = some (.operand o)
  last : ∃ o, tokens.getLast? = some (.operand o)
  group : ∀ negative inside, .operand (.group negative inside) ∈ tokens → Balanced true inside
  call : ∀ negative name args, .operand (.call negative name args) ∈ tokens →
    ∀ arg ∈ args, Balanced false arg ∧ ¬ Blank arg ∧ Text.trim arg = arg

theorem Solid.not_blank {text : List Char} (h : Solid text) : ¬ Blank text := by
  obtain ⟨c, rest, rfl, hc⟩ := h.first
  intro hblank
  rw [hblank c (by simp)] at hc
  cases hc

theorem wellFormed_of_scan {text : List Char} {tokens : List Token}
    (h : Scanner.scan text = .ok tokens) : WellFormed tokens := by
  obtain ⟨halternates, hlegible⟩ := alternates_of_scanFrom h
  refine ⟨halternates, halternates.exists_head, halternates.exists_getLast, ?_, ?_⟩
  · intro negative inside hmem
    cases hlegible _ hmem with
    | group hinside => exact hinside
  · intro negative name args hmem arg harg
    cases hlegible _ hmem with
    | call hnumber hname hargs =>
      have hsolid := (hargs arg harg).solid
      exact ⟨(hargs arg harg).balanced, hsolid.not_blank, hsolid.trim_eq⟩

end Grammar

/-! ## The stack program -/

namespace Postfix

/-- A postfix form whose stack program only fails where one of the operands does, or with a tree
that is too tall; also if the operands depend on a state and change it. -/
structure Builds (tokens line : List Token) : Prop where
  fault : ∀ (options : Options) (resolve : Operand → Except Fault Expr),
    Only (fun f => (∃ o, .operand o ∈ tokens ∧ resolve o = .error f) ∨
      f = tooTall options (Token.lineChars line)) (build options resolve line)
  run_fault : ∀ {σ : Type} (options : Options) (resolve : Operand → ExceptT Fault (StateM σ) Expr),
    RunsOnly (fun f => (∃ o s s', .operand o ∈ tokens ∧ (resolve o).run.run s = (.error f, s')) ∨
      f = tooTall options (Token.lineChars line)) (build options resolve line)

namespace Bracketing

/-- What is kept by sequencing and true of the operands and of the one fault, is true of the
tree. -/
theorem assemble_of_closed {m : Type → Type} [Monad m] [MonadExceptOf Fault m] {options : Options}
    {resolve : Operand → m Expr} {line : List Token} {P : m Expr → Prop}
    (hpure : ∀ e, P (pure e)) (hbind : ∀ x next, P x → (∀ e, P (next e)) → P (x >>= next))
    (hthrow : P (throwThe Fault (tooTall options (Token.lineChars line)))) {t : Bracketing}
    (hresolve : ∀ o, .operand o ∈ t.inorder → P (resolve o)) :
    P (t.assemble options resolve line) := by
  induction t with
  | leaf o => exact hresolve o (by simp [inorder])
  | node op l r ihl ihr =>
    have hl := ihl fun o ho => hresolve o (by simp [inorder, ho])
    have hr := ihr fun o ho => hresolve o (by simp [inorder, ho])
    refine hbind _ _ hl fun a => hbind _ _ hr fun b => ?_
    simp only []
    split
    · exact hthrow
    · exact hpure _

end Bracketing

open Bracketing

theorem Alternates.exists_builds {tokens : List Token} (h : Alternates tokens) :
    ∃ line, ofTokens tokens = .ok line ∧ Builds tokens line := by
  obtain ⟨t, rfl, ht⟩ := h.exists_respects
  refine ⟨t.postorder, ofTokens_inorder ht, fun options resolve => ?_, fun options resolve => ?_⟩
  · rw [build_postorder fun _ _ => rfl]
    refine assemble_of_closed only_ok (fun x next => only_bind) (only_error (.inr rfl)) ?_
    exact fun o ho f hf => .inl ⟨o, ho, hf⟩
  · rw [build_postorder fun _ _ => rfl]
    refine assemble_of_closed runsOnly_pure (fun x next => runsOnly_bind)
      (runsOnly_throw (.inr rfl)) ?_
    exact fun o ho f s s' hf => .inl ⟨o, s, s', ho, hf⟩

end Postfix
end Reckoner
