import Mathlib
import Reckoner.Proofs.Evaluation.Results

/-!
# Limits are pure guards

The limits of a parser and its policy for zero over zero only ever decide between going on and
failing, so loosening them can turn a fault into a value but never change a value.

The proof follows two runs side by side, one under the stricter options and one under the looser:
whatever succeeds in the first succeeds in the second, with the same result (`Persists`) or, for
trees, with the same result but for the options in it (`PersistsAs`).  That is passed on by
sequencing (`PersistsAs.bind`) and holds of every guard (`PersistsAs.guard`), hence of the stack
program and of every level of parentheses (`persists_parseLevel`), and of the values of trees
(`Expr.persists_denote`).  Only the quotient takes more: under the two policies its operands are
looked at in different orders (`persists_div`).
-/

namespace Reckoner

/-! ## Looser options -/

/-- The second options have limits that are no smaller, and the same policy or a more lenient one;
the precision is the same. -/
structure Options.Loosens (o o' : Options) : Prop where
  precision : o'.precision = o.precision
  zeroOverZero : o'.zeroOverZero = o.zeroOverZero ∨
    o.zeroOverZero = .fault ∧ o'.zeroOverZero = .zero
  depth : o.limits.depth ≤ o'.limits.depth
  height : o.limits.height ≤ o'.limits.height
  length : o.limits.length ≤ o'.limits.length
  exponent : o.limits.exponent ≤ o'.limits.exponent

/-- The success of one calculation is the success of another one: if the first has a result, it is
that of the second too. -/
def Persists {α : Type} (x x' : Except Fault α) : Prop := ∀ a, x = .ok a → x' = .ok a

namespace Persists

variable {α β : Type} {x x' : Except Fault α}

theorem refl (x : Except Fault α) : Persists x x := fun _ h => h

theorem error (f : Fault) : Persists (.error f) x' := by
  intro a h
  cases h

theorem bind {g g' : α → Except Fault β} (hx : Persists x x') (hg : ∀ a, Persists (g a) (g' a)) :
    Persists (x >>= g) (x' >>= g') := by
  intro b h
  obtain ⟨a, ha, h⟩ := ok_of_bind_eq_ok h
  rw [hx a ha]
  exact hg a b h

theorem map (g : α → β) (hx : Persists x x') : Persists (g <$> x) (g <$> x') := by
  intro b h
  obtain ⟨a, ha, rfl⟩ := ok_of_map_eq_ok h
  rw [hx a ha]
  rfl

end Persists

/-- The same with results that correspond: what the first has as its result, the second has in the
form that `u` gives it. -/
def PersistsAs {α α' : Type} (u : α → α') (x : Except Fault α) (x' : Except Fault α') : Prop :=
  ∀ a, x = .ok a → x' = .ok (u a)

namespace PersistsAs

variable {α α' β β' : Type} {u : α → α'} {w : β → β'} {x : Except Fault α} {x' : Except Fault α'}

theorem refl (x : Except Fault α) : PersistsAs id x x := fun _ h => h

theorem ok (a : α) : PersistsAs u (.ok a) (.ok (u a)) := by
  intro b h
  rw [Except.ok.inj h]

theorem error (f : Fault) : PersistsAs u (.error f) x' := by
  intro a h
  cases h

theorem bind {g : α → Except Fault β} {g' : α' → Except Fault β'} (hx : PersistsAs u x x')
    (hg : ∀ a, PersistsAs w (g a) (g' (u a))) : PersistsAs w (x >>= g) (x' >>= g') := by
  intro b h
  obtain ⟨a, ha, h⟩ := ok_of_bind_eq_ok h
  rw [hx a ha]
  exact hg a b h

/-- A guard that fails if `p` is true, and fails less often if `p'` is. -/
theorem guard {p p' : Prop} [Decidable p] [Decidable p'] (hp : p' → p) {f f' : Fault}
    (hx : PersistsAs u x x') :
    PersistsAs u (if p then .error f else x) (if p' then .error f' else x') := by
  by_cases h : p
  · rw [if_pos h]
    exact error f
  · rw [if_neg h, if_neg (mt hp h)]
    exact hx

theorem mapM {γ : Type} {g : γ → Except Fault β} {g' : γ → Except Fault β'}
    (hg : ∀ c, PersistsAs w (g c) (g' c)) (cs : List γ) :
    PersistsAs (List.map w) (cs.mapM g) (cs.mapM g') := by
  induction cs with
  | nil => exact ok []
  | cons c cs ih =>
    rw [List.mapM_cons, List.mapM_cons]
    exact (hg c).bind fun b => ih.bind fun bs => ok (b :: bs)

theorem foldlM {γ : Type} {g : β → γ → Except Fault β} {g' : β' → γ → Except Fault β'}
    (hg : ∀ b c, PersistsAs w (g b c) (g' (w b) c)) (cs : List γ) (b : β) :
    PersistsAs w (cs.foldlM g b) (cs.foldlM g' (w b)) := by
  induction cs generalizing b with
  | nil => exact ok b
  | cons c cs ih =>
    rw [List.foldlM_cons, List.foldlM_cons]
    exact (hg b c).bind ih

end PersistsAs

/-! ## Reading -/

namespace Postfix

variable {o o' : Options} (ho : o.Loosens o') {resolve resolve' : Operand → Except Fault Expr}
  (hresolve : ∀ x, PersistsAs (Expr.withOptions o') (resolve x) (resolve' x))

include ho hresolve

theorem persists_step (line : List Token) (stack : List Expr) (token : Token) :
    PersistsAs (List.map (Expr.withOptions o')) (step o resolve line stack token)
      (step o' resolve' line (stack.map (Expr.withOptions o')) token) := by
  cases token with
  | operand x => exact (hresolve x).bind fun e => .ok (e :: stack)
  | operator op =>
    match stack with
    | [] => exact .error _
    | [_] => exact .error _
    | right :: left :: stack =>
      have htree : (Expr.binary o op left right).withOptions o' = _ :=
        Expr.withOptions_binary op left right
      refine .guard (fun h => ?_) ?_
      · rw [← htree, Expr.height_withOptions] at h
        exact ho.height.trans_lt h
      · rw [← htree]
        exact .ok (.binary o op left right :: stack)

theorem persists_build (line : List Token) :
    PersistsAs (Expr.withOptions o') (build o resolve line) (build o' resolve' line) := by
  refine (PersistsAs.foldlM (persists_step ho hresolve line) line []).bind fun stack => ?_
  match stack with
  | [e] => exact .ok e
  | [] => exact .error _
  | _ :: _ :: _ => exact .error _

end Postfix

namespace Parser

variable {r : Registry} {o o' : Options}

theorem persists_parseAtom (text : List Char) : PersistsAs (Expr.withOptions o')
    (parseAtom ⟨r, o⟩ text) (parseAtom ⟨r, o'⟩ text) := by
  intro e h
  unfold parseAtom at h ⊢
  split at h
  split at h
  · rename_i hnumber
    obtain ⟨v, hv, rfl⟩ := ok_of_map_eq_ok h
    simp only [hnumber, if_true, hv]
    rw [Expr.withOptions]
    rfl
  · rename_i hnumber
    split at h
    · rename_i hname
      split at h
      · rename_i c hc
        cases h
        simp only [hnumber, hname, hc, if_true]
        rw [Expr.withOptions_withSign, Expr.withOptions]
        rfl
      · cases h
    · cases h

variable (ho : o.Loosens o')

include ho

section Operand

variable {inside inside' : List Char → Except Fault Expr}
  (hinside : ∀ text, PersistsAs (Expr.withOptions o') (inside text) (inside' text))

include hinside

theorem persists_parseCall (negative : Bool) (name : List Char) (args : List (List Char)) :
    PersistsAs (Expr.withOptions o') (parseCall ⟨r, o⟩ inside negative name args)
      (parseCall ⟨r, o'⟩ inside' negative name args) := by
  unfold parseCall
  cases r.function? (String.ofList name) with
  | none => exact .error _
  | some f =>
    refine .guard id ?_
    refine (PersistsAs.mapM hinside args).bind fun es => ?_
    have htree : ((Expr.call o f es).withSign o negative).withOptions o' =
        (Expr.call o' f (es.map (Expr.withOptions o'))).withSign o' negative := by
      rw [Expr.withOptions_withSign, Expr.withOptions, Expr.withOptionsAll_eq_map]
    refine .guard (fun h => ?_) ?_
    · rw [← htree, Expr.height_withOptions] at h
      exact ho.height.trans_lt h
    · rw [← htree]
      exact .ok _

theorem persists_parseOperand (x : Operand) : PersistsAs (Expr.withOptions o')
    (parseOperand ⟨r, o⟩ inside x) (parseOperand ⟨r, o'⟩ inside' x) := by
  cases x with
  | atom text => exact persists_parseAtom text
  | group negative text =>
    intro e h
    obtain ⟨x, hx, rfl⟩ := ok_of_map_eq_ok h
    rw [parseOperand, hinside text x hx, Expr.withOptions_withSign]
    rfl
  | call negative name args => exact persists_parseCall ho hinside negative name args

end Operand

/-- What is read with some levels is read in the same way with more of them. -/
theorem persists_parseLevel {levels levels' : Nat} (hlevels : levels ≤ levels')
    (text : List Char) : PersistsAs (Expr.withOptions o')
      (parseLevel ⟨r, o⟩ levels text) (parseLevel ⟨r, o'⟩ levels' text) := by
  -- on the levels of the stricter parser; the looser one has as many left, and perhaps more
  induction levels generalizing levels' text with
  | zero => exact .error _
  | succ levels ih =>
    obtain ⟨levels', rfl⟩ := Nat.exists_eq_add_of_le' hlevels
    have hinside (text : List Char) := ih (Nat.le_add_left levels levels') text
    refine (PersistsAs.refl _).bind fun tokens => (PersistsAs.refl _).bind fun line => ?_
    exact Postfix.persists_build ho (persists_parseOperand ho hinside) line

theorem persists_parse (entry : String) :
    PersistsAs (Expr.withOptions o') (parse ⟨r, o⟩ entry) (parse ⟨r, o'⟩ entry) :=
  .guard (fun h => ho.length.trans_lt h)
    (persists_parseLevel ho (Nat.add_le_add_right ho.depth 1) entry.toList)

end Parser

/-! ## Operations -/

namespace Inquiry

variable {α β : Type} {read read' : Side → Outcome}

theorem run_ask_eq_ok_iff {side : Side} {next : Value → Inquiry α} {a : α} :
    (ask side next).run (m := Id) read = .ok a ↔
      ∃ v, read side = .ok v ∧ (next v).run (m := Id) read = .ok a := by
  rw [run_ask]
  cases read side with
  | ok v => simp
  | error f => simp

theorem run_bind_eq_ok_iff {q : Inquiry α} {f : α → Inquiry β} {b : β} :
    (q >>= f).run (m := Id) read = .ok b ↔
      ∃ a, q.run (m := Id) read = .ok a ∧ (f a).run (m := Id) read = .ok b := by
  induction q with
  | done a =>
    constructor
    · intro h
      exact ⟨a, rfl, h⟩
    · rintro ⟨a', ha, h⟩
      obtain rfl : a = a' := Except.ok.inj ha
      exact h
  | fail x =>
    constructor
    · intro h
      cases h
    · rintro ⟨a, ha, -⟩
      cases ha
  | ask side next ih =>
    simp only [ask_bind, run_ask_eq_ok_iff, ih]
    constructor
    · rintro ⟨v, hv, a, ha, h⟩
      exact ⟨a, ⟨v, hv, ha⟩, h⟩
    · rintro ⟨a, ⟨v, hv, ha⟩, h⟩
      exact ⟨v, hv, a, ha, h⟩

/-- An inquiry of which the answers persist comes to the same decision. -/
theorem persists_run (hread : ∀ side, Persists (read side) (read' side)) (q : Inquiry α) :
    Persists (q.run (m := Id) read) (q.run (m := Id) read') := by
  induction q with
  | done a => exact .refl _
  | fail f => exact .error f
  | ask side next ih =>
    intro a h
    obtain ⟨v, hv, h⟩ := run_ask_eq_ok_iff.1 h
    exact run_ask_eq_ok_iff.2 ⟨v, hread side v hv, ih v a h⟩

end Inquiry

namespace Operation

open Inquiry Arithmetic

variable {o o' : Options} (ho : o.Loosens o')

section Plan

variable {read read' : Side → Outcome} (hread : ∀ side, Persists (read side) (read' side))

include hread

/-- Under the strict policy both operands of a quotient that succeeds have values, so the lenient
policy may look at the dividend first. -/
theorem persists_div {policy policy' : ZeroOverZero}
    (hpolicy : policy' = policy ∨ policy = .fault ∧ policy' = .zero) :
    Persists ((Shortcut.div policy).run (m := Id) read)
      ((Shortcut.div policy').run (m := Id) read') := by
  obtain rfl | ⟨rfl, rfl⟩ := hpolicy
  · -- the same policy asks the same questions
    exact persists_run hread _
  · intro v? h
    obtain ⟨b, hb, h⟩ := run_ask_eq_ok_iff.1 h
    by_cases hbzero : b.is .zero = true
    · simp only [Inquiry.bind, hbzero, if_true] at h
      cases h
    · simp only [Inquiry.bind, hbzero] at h
      -- both operands have values by now, so they can be looked at in the other order
      obtain ⟨a, ha, h⟩ := run_ask_eq_ok_iff.1 h
      refine run_ask_eq_ok_iff.2 ⟨a, hread .left a ha, ?_⟩
      by_cases hazero : a.is .zero = true
      · simp only [Inquiry.bind, hazero, if_true] at h ⊢
        exact h
      · simp only [Inquiry.bind, hazero] at h ⊢
        refine run_ask_eq_ok_iff.2 ⟨b, hread .right b hb, ?_⟩
        simp only [Inquiry.bind, hbzero]
        exact h

include ho

theorem persists_plan (costs : Costs) (op : Operator) :
    Persists ((plan o costs op).run (m := Id) read) ((plan o' costs op).run (m := Id) read') := by
  intro operation h
  obtain ⟨v?, hrule, h⟩ := run_bind_eq_ok_iff.1 h
  refine run_bind_eq_ok_iff.2 ⟨v?, ?_, persists_run hread _ operation h⟩
  cases op with
  | div => exact persists_div hread ho.zeroOverZero v? hrule
  | add => exact persists_run hread _ v? hrule
  | sub => exact persists_run hread _ v? hrule
  | mul => exact persists_run hread _ v? hrule
  | pow => exact persists_run hread _ v? hrule

end Plan

include ho

theorem persists_checkExponent (n : Int) :
    Persists (checkExponent o n) (checkExponent o' n) := by
  intro k h
  unfold checkExponent at h ⊢
  split at h
  · rename_i hn
    rw [if_pos ⟨hn.1.trans ho.exponent, hn.2⟩]
    exact h
  · cases h

theorem persists_choose (a b : Value) :
    Persists (PowerMethod.choose o a b) (PowerMethod.choose o' a b) := by
  unfold PowerMethod.choose
  split
  · exact .refl _
  · split
    · exact .refl _
    · simp only []
      split
      · exact .refl _
      · split
        · exact .error _
        · exact (persists_checkExponent ho _).bind fun _ => .refl _

theorem persists_carryOut (method : PowerMethod) :
    Persists (method.carryOut o) (method.carryOut o') := by
  cases method with
  | known v => exact .refl _
  | integer base n => exact (persists_checkExponent ho n).bind fun _ => .refl _
  | exactRoot root n => exact (persists_checkExponent ho n).bind fun _ => .refl _
  | approximate x y =>
    unfold PowerMethod.carryOut
    rw [ho.precision]
    exact .refl _

theorem persists_compute (op : Operator) (a b : Value) :
    Persists (compute o op a b) (compute o' op a b) := by
  cases op with
  | div =>
    by_cases hb : b.toRat = 0
    · rw [compute_div_zero o a b hb, compute_div_zero o' a b hb]
      intro v h
      split at h
      · rename_i hzero
        have hpolicy : o'.zeroOverZero = .zero := by
          rcases ho.zeroOverZero with hsame | hloosened
          · rw [hsame]
            exact hzero.2
          · exact hloosened.2
        rw [if_pos ⟨hzero.1, hpolicy⟩]
        exact h
      · cases h
    · rw [compute_div o a b hb, compute_div o' a b hb]
      exact .refl _
  | pow => exact (persists_choose ho a b).bind (persists_carryOut ho)
  | add => exact .refl _
  | sub => exact .refl _
  | mul => exact .refl _

theorem persists_conclude (op : Operator) (operation : Operation) :
    Persists (operation.conclude o op).value (operation.conclude o' op).value := by
  cases operation with
  | shortcut v => exact .refl _
  | full a b =>
    simp only [conclude, value_computeTraced]
    exact persists_compute ho op a b

end Operation

/-! ## Functions -/

namespace Function

/-- Under looser options the function has the values that it has under stricter ones. -/
def Persists (f : Function) (o o' : Options) : Prop :=
  ∀ args, Reckoner.Persists (f.call o args).value (f.call o' args).value

variable {o o' : Options}

theorem persists_of_body {f : Function}
    (h : ∀ args, Reckoner.Persists (f.body o args).value (f.body o' args).value) :
    f.Persists o o' := by
  intro args
  unfold call
  by_cases haccepts : f.arity.accepts args.length = true
  · rw [if_pos haccepts, if_pos haccepts]
    exact h args
  · rw [if_neg haccepts, if_neg haccepts]
    exact .refl _

theorem persists_unary {name : String} {g : Options → Value → Outcome}
    (h : ∀ x, Reckoner.Persists (g o x) (g o' x)) : (unary name g).Persists o o' := by
  refine persists_of_body fun args => ?_
  cases args with
  | nil => exact .refl _
  | cons x rest => exact h x

theorem persists_binary {name : String} {g : Options → Value → Value → Traced Outcome}
    (h : ∀ x y, Reckoner.Persists (g o x y).value (g o' x y).value) :
    (binary name g).Persists o o' := by
  refine persists_of_body fun args => ?_
  match args with
  | [] => exact .refl _
  | [_] => exact .refl _
  | x :: y :: _ => exact h x y

theorem persists_nonempty {name : String} {g : Value → List Value → Value} :
    (nonempty name g).Persists o o' := fun _ => .refl _

end Function

namespace Standard

variable {o o' : Options} (ho : o.Loosens o')

include ho

theorem persists_apply (op : Operator) (a b : Value) :
    Persists (Operation.applyTraced o op a b).value (Operation.applyTraced o' op a b).value := by
  have hplan : Persists ((Operation.plan o Operation.knownCosts op).settle a b)
      ((Operation.plan o' Operation.knownCosts op).settle a b) :=
    Operation.persists_plan ho (fun side => .refl _) Operation.knownCosts op
  intro v h
  unfold Operation.applyTraced at h ⊢
  cases hsettled : (Operation.plan o Operation.knownCosts op).settle a b with
  | error f =>
    rw [hsettled] at h
    cases h
  | ok operation =>
    rw [hsettled] at h
    rw [hplan operation hsettled]
    exact Operation.persists_conclude ho op operation v h

/-- A standard function depends on the options by the precision alone, and by the limits as the
operator of powers does. -/
theorem persists_functions {f : Function} (hf : f ∈ functions) : f.Persists o o' := by
  have hsqrt (x : Value) : Persists (sqrt o x) (sqrt o' x) := by
    unfold sqrt rounded
    rw [ho.precision]
    exact .refl _
  have hexp (x : Value) : Persists (exp o x) (exp o' x) := by
    unfold exp rounded
    rw [ho.precision]
    exact .refl _
  have hrounded (r : Nat → Except Fault Rat) :
      Persists (rounded o (r o.precision)) (rounded o' (r o'.precision)) := by
    unfold rounded
    rw [ho.precision]
    exact .refl _
  simp only [functions, List.mem_cons, List.not_mem_nil, or_false] at hf
  rcases hf with rfl | rfl | rfl | rfl | rfl | rfl | rfl | rfl | rfl | rfl | rfl | rfl | rfl | rfl
  · exact Function.persists_unary fun x => hrounded fun n => .ok (FixedPoint.sin x.toRat n)
  · exact Function.persists_unary fun x => hrounded fun n => .ok (FixedPoint.cos x.toRat n)
  · exact Function.persists_unary fun x => hrounded (FixedPoint.tan x.toRat)
  · exact Function.persists_unary hsqrt
  · exact Function.persists_unary fun x => hrounded (FixedPoint.ln x.toRat)
  · exact Function.persists_unary hexp
  · exact Function.persists_binary fun x y => persists_apply ho .pow x y
  · exact Function.persists_binary fun x y => .refl _
  · exact Function.persists_binary fun x y => .refl _
  · exact Function.persists_binary fun x y => .refl _
  · exact Function.persists_unary fun x => .refl _
  · exact Function.persists_unary fun x => .refl _
  · exact Function.persists_nonempty
  · exact Function.persists_nonempty

end Standard

/-! ## Trees -/

namespace Expr

variable {o o' : Options} {r : Registry}

/-- The outcomes of two operands. -/
def operands (left right : Expr) : Side → Outcome
  | .left => left.denote
  | .right => right.denote

theorem denote_binary_eq (op : Operator) (left right : Expr) :
    (binary o op left right).denote =
      match (Operation.plan o (costs left right) op).run (m := Id) (operands left right) with
      | .ok operation => (operation.conclude o op).value
      | .error f => .error f := by
  rw [denote]
  rfl

theorem denote_binary_eq_ok_iff {op : Operator} {left right : Expr} {v : Value} :
    (binary o op left right).denote = .ok v ↔
      ∃ operation, (Operation.plan o (costs left right) op).run (m := Id) (operands left right) =
        .ok operation ∧ (operation.conclude o op).value = .ok v := by
  rw [denote_binary_eq]
  cases (Operation.plan o (costs left right) op).run (m := Id) (operands left right) with
  | ok operation =>
    constructor
    · intro h
      exact ⟨operation, rfl, h⟩
    · rintro ⟨operation', hrun, h⟩
      obtain rfl := Except.ok.inj hrun
      exact h
  | error f =>
    constructor
    · intro h
      cases h
    · rintro ⟨operation, hrun, -⟩
      cases hrun

mutual

/-- The value of a tree persists under looser options if those of its functions do. -/
theorem persists_denote (ho : o.Loosens o') (hr : ∀ f ∈ r.functions, f.Persists o o') :
    ∀ e : Expr, e.Readable r o → Persists e.denote (e.withOptions o').denote
  | literal v, _ => by
    rw [withOptions]
    exact .refl _
  | constant name v, _ => by
    rw [withOptions]
    exact .refl _
  | call own f args, h => by
    rw [Readable] at h
    obtain ⟨hown, -, hf, -, hargs⟩ := h
    have hvalues := persists_denoteAll ho hr args hargs
    intro v hv
    rw [hown] at hv
    rw [withOptions]
    rw [denote] at hv ⊢
    split at hv
    · rename_i values hdenote
      rw [hvalues values hdenote]
      exact hr f (Registry.of_function?_eq_some hf).1 values v hv
    · cases hv
  | binary own op left right, h => by
    rw [Readable] at h
    obtain ⟨hown, hleft, hright⟩ := h
    have hleft := persists_denote ho hr left hleft
    have hright := persists_denote ho hr right hright
    have hcosts : costs (left.withOptions o') (right.withOptions o') = costs left right := by
      rw [costs, costs, leaves_withOptions, leaves_withOptions]
    intro v hv
    rw [hown] at hv
    rw [withOptions]
    obtain ⟨operation, hrun, hconclude⟩ := denote_binary_eq_ok_iff.1 hv
    refine denote_binary_eq_ok_iff.2 ⟨operation, ?_,
      Operation.persists_conclude ho op operation v hconclude⟩
    rw [hcosts]
    refine Operation.persists_plan ho (fun side => ?_) (costs left right) op operation hrun
    cases side with
    | left => exact hleft
    | right => exact hright

theorem persists_denoteAll (ho : o.Loosens o') (hr : ∀ f ∈ r.functions, f.Persists o o') :
    ∀ es : List Expr, AllReadable r o es →
      Persists (denoteAll es) (denoteAll (withOptionsAll o' es))
  | [], _ => by
    rw [withOptionsAll]
    exact .refl _
  | e :: rest, h => by
    rw [AllReadable] at h
    have hfirst := persists_denote ho hr e h.1
    have hrest := persists_denoteAll ho hr rest h.2
    intro vs hvs
    rw [withOptionsAll]
    rw [denoteAll] at hvs ⊢
    split at hvs
    · rename_i v hv
      rw [hfirst v hv]
      exact hrest.map (v :: ·) vs hvs
    · cases hvs

end

end Expr

/-! ## Entries -/

namespace Parser

/-- The standard parser with just enough room for a quotient of digits. -/
def tightParser : Parser :=
  ⟨.standard {}, { limits := { depth := 0, height := 2, length := 4, exponent := 0 } }⟩

/-- The standard parser with the usual limits, for which zero over zero is zero. -/
def lenientParser : Parser := ⟨.standard {}, { zeroOverZero := .zero }⟩

end Parser
end Reckoner
