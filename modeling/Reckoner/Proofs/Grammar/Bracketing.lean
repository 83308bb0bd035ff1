import Mathlib
import Reckoner.Proofs.Grammar.Grouping

/-!
# Priority and associativity

A line of operands and operators can be bracketed in many ways.  One of them respects the
priorities of the operators and the sides to which their chains group, and it is the one that
the calculator means:

* a line in which operands and operators alternate has a bracketing that respects the priorities
  (`Alternates.exists_respects`);
* `Postfix.ofTokens` writes the operators of such a bracketing behind their operands
  (`ofTokens_inorder`), so there is no second one (`Bracketing.Respects.unique`);
* `Postfix.build` makes its tree, asking for the operands from left to right
  (`Bracketing.build_postorder`).

`ofTokens_bracketing` puts the three together.
-/

namespace Reckoner
namespace Postfix

/-! ## Bracketings -/

/-- A line with all its brackets: the operands of the line at the leaves, its operators at the
inner nodes.  An operand that stands for an operation, such as a group, is a leaf. -/
inductive Bracketing where
  | leaf (o : Operand)
  | node (op : Operator) (left right : Bracketing)

/-- The operands of a line. -/
def operands (tokens : List Token) : List Operand :=
  tokens.filterMap fun
    | .operand o => some o
    | .operator _ => none

/-- Operands and operators alternate, from an operand to an operand. -/
inductive Alternates : List Token → Prop where
  | last (o : Operand) : Alternates [.operand o]
  | cons (o : Operand) (op : Operator) {rest : List Token} (h : Alternates rest) :
    Alternates (.operand o :: .operator op :: rest)

namespace Bracketing

/-- The line that is bracketed. -/
def inorder : Bracketing → List Token
  | leaf o => [.operand o]
  | node op l r => l.inorder ++ .operator op :: r.inorder

/-- Every operator behind its operands. -/
def postorder : Bracketing → List Token
  | leaf o => [.operand o]
  | node op l r => l.postorder ++ r.postorder ++ [.operator op]

/-- The operator that is applied last. -/
def root? : Bracketing → Option Operator
  | leaf _ => none
  | node op _ _ => some op

/-- What may stand to the left of an operator: nothing that binds less tightly, and nothing
that binds equally tightly if the operator is a power. -/
def FitsLeft (op : Operator) (l : Bracketing) : Prop :=
  ∀ op' ∈ l.root?, op.priority ≤ op'.priority ∧ (op = .pow → op.priority < op'.priority)

/-- What may stand to the right of an operator: only what binds more tightly, or equally
tightly if the operator is a power. -/
def FitsRight (op : Operator) (r : Bracketing) : Prop :=
  ∀ op' ∈ r.root?, op.priority ≤ op'.priority ∧ (op ≠ .pow → op.priority < op'.priority)

/-- Priorities decide, powers group to the right and all else to the left. -/
def Respects : Bracketing → Prop
  | leaf _ => True
  | node op l r => FitsLeft op l ∧ FitsRight op r ∧ l.Respects ∧ r.Respects

/-- The tree of a bracketing, its operands asked for from left to right. -/
def tree {m : Type → Type} [Monad m] (options : Options) (resolve : Operand → m Expr) :
    Bracketing → m Expr
  | leaf o => resolve o
  | node op l r => do
    let a ← l.tree options resolve
    let b ← r.tree options resolve
    return .binary options op a b

/-! ## Reading a bracketing -/

theorem perm_postorder (t : Bracketing) : t.postorder.Perm t.inorder := by
  induction t with
  | leaf o => exact List.Perm.refl _
  | node op l r ihl ihr =>
    rw [postorder, inorder, List.append_assoc]
    exact ihl.append ((List.perm_append_singleton _ _).trans (ihr.cons _))

theorem operands_postorder (t : Bracketing) : operands t.postorder = operands t.inorder := by
  induction t with
  | leaf o => rfl
  | node op l r ihl ihr =>
    simp only [operands] at ihl ihr ⊢
    simp [postorder, inorder, ihl, ihr]

/-- Two lines that end in postfix forms end in the same one: its last token is an operand or an
operator, and what comes before falls into two postfix forms from the end. -/
theorem eq_of_append_postorder {t t' : Bracketing} {xs xs' : List Token}
    (h : xs ++ t.postorder = xs' ++ t'.postorder) : xs = xs' ∧ t = t' := by
  induction t generalizing t' xs xs' with
  | leaf o =>
    cases t' with
    | leaf o' =>
      obtain ⟨hxs, ho⟩ := List.append_inj' h rfl
      cases ho
      exact ⟨hxs, rfl⟩
    | node op l r =>
      rw [postorder, postorder, ← List.append_assoc xs'] at h
      cases (List.append_inj' h rfl).2
  | node op l r ihl ihr =>
    cases t' with
    | leaf o' =>
      rw [postorder, postorder, ← List.append_assoc xs] at h
      cases (List.append_inj' h rfl).2
    | node op' l' r' =>
      rw [postorder, postorder, ← List.append_assoc xs, ← List.append_assoc xs'] at h
      obtain ⟨hrest, hop⟩ := List.append_inj' h rfl
      cases hop
      rw [← List.append_assoc, ← List.append_assoc] at hrest
      obtain ⟨hl, rfl⟩ := ihr hrest
      obtain ⟨hxs, rfl⟩ := ihl hl
      exact ⟨hxs, rfl⟩

theorem postorder_injective : Function.Injective postorder := fun t t' h =>
  have hnil : [] ++ t.postorder = [] ++ t'.postorder := h
  (eq_of_append_postorder hnil).2

/-! ## A bracketing for every line -/

theorem precedes_eq_true_iff (op' op : Operator) : precedes op' op = true ↔
    op.priority ≤ op'.priority ∧ (op = .pow → op.priority < op'.priority) := by
  cases op' <;> cases op <;> decide

theorem precedes_eq_false_iff (op op' : Operator) : precedes op op' = false ↔
    op.priority ≤ op'.priority ∧ (op ≠ .pow → op.priority < op'.priority) := by
  cases op <;> cases op' <;> decide

theorem fitsLeft_node {op op' : Operator} {l r : Bracketing} :
    FitsLeft op (node op' l r) ↔ precedes op' op = true := by
  rw [precedes_eq_true_iff, FitsLeft]
  simp [root?]

theorem fitsRight_node {op op' : Operator} {l r : Bracketing} :
    FitsRight op (node op' l r) ↔ precedes op op' = false := by
  rw [precedes_eq_false_iff, FitsRight]
  simp [root?]

theorem fitsLeft_leaf (op : Operator) (o : Operand) : FitsLeft op (leaf o) :=
  fun _ h => by cases h

theorem fitsRight_leaf (op : Operator) (o : Operand) : FitsRight op (leaf o) :=
  fun _ h => by cases h

/-- A bracketing with one more operator and operand at the end of its line.  The operator takes
all it can on its left: it goes down the right edge as far as what it finds there waits for it. -/
def extend (op : Operator) (o : Operand) : Bracketing → Bracketing
  | leaf x => node op (leaf x) (leaf o)
  | node op' l r =>
    if precedes op' op then node op (node op' l r) (leaf o) else node op' l (r.extend op o)

theorem inorder_extend (op : Operator) (o : Operand) (t : Bracketing) :
    (t.extend op o).inorder = t.inorder ++ [.operator op, .operand o] := by
  induction t with
  | leaf x => rfl
  | node op' l r ihl ihr =>
    rw [extend]
    split
    · rfl
    · simp [inorder, ihr]

theorem FitsRight.extend {op op' : Operator} {o : Operand} {t : Bracketing}
    (h : FitsRight op t) (hop : precedes op op' = false) : FitsRight op (t.extend op' o) := by
  cases t with
  | leaf x => exact fitsRight_node.2 hop
  | node op'' l r =>
    rw [Bracketing.extend]
    split
    · exact fitsRight_node.2 hop
    · exact fitsRight_node.2 (fitsRight_node.1 h)

theorem Respects.extend {t : Bracketing} (ht : t.Respects) (op : Operator) (o : Operand) :
    (t.extend op o).Respects := by
  induction t with
  | leaf x => exact ⟨fitsLeft_leaf op x, fitsRight_leaf op o, trivial, trivial⟩
  | node op' l r ihl ihr =>
    obtain ⟨hl, hr, htl, htr⟩ := ht
    rw [Bracketing.extend]
    split
    · rename_i hop
      exact ⟨fitsLeft_node.2 hop, fitsRight_leaf op o, ⟨hl, hr, htl, htr⟩, trivial⟩
    · rename_i hop
      exact ⟨hl, hr.extend (by simpa using hop), htl, ihr htr⟩

theorem Respects.exists_append {t : Bracketing} (ht : t.Respects) {rest : List Token}
    (hrest : Alternates rest) (op : Operator) :
    ∃ t' : Bracketing, t'.inorder = t.inorder ++ .operator op :: rest ∧ t'.Respects := by
  induction hrest generalizing t op with
  | last o => exact ⟨t.extend op o, inorder_extend op o t, ht.extend op o⟩
  | @cons o op' rest h ih =>
    obtain ⟨t', hline, ht'⟩ := ih (ht.extend op o) op'
    refine ⟨t', ?_, ht'⟩
    rw [hline, inorder_extend, List.append_assoc]
    rfl

end Bracketing

open Bracketing

theorem Alternates.exists_respects {tokens : List Token} (h : Alternates tokens) :
    ∃ t : Bracketing, t.inorder = tokens ∧ t.Respects := by
  cases h with
  | last o => exact ⟨leaf o, rfl, trivial⟩
  | cons o op h => exact Respects.exists_append (t := leaf o) trivial h op

/-! ## The postfix form of a bracketing -/

namespace Bracketing

/-- The operators that wait for their right operand at the end of the line, the last one
first. -/
def waiting : Bracketing → List Operator
  | leaf _ => []
  | node op _ r => r.waiting ++ [op]

/-- What has been written by the end of the line. -/
def written : Bracketing → List Token
  | leaf o => [.operand o]
  | node _ l r => l.postorder ++ r.written

theorem written_append_waiting (t : Bracketing) :
    t.written ++ t.waiting.map Token.operator = t.postorder := by
  induction t with
  | leaf o => rfl
  | node op l r ihl ihr => simp [written, waiting, postorder, ← ihr]

/-- An operator makes all that waits at the end of its left operand come first. -/
theorem FitsLeft.precedes_of_mem {op : Operator} {l : Bracketing} (h : FitsLeft op l)
    (hl : l.Respects) : ∀ op' ∈ l.waiting, precedes op' op = true := by
  induction l with
  | leaf o => exact fun op' hop' => by cases hop'
  | node op₁ l r ihl ihr =>
    obtain ⟨-, hr, -, hresp⟩ := hl
    have hop₁ := (precedes_eq_true_iff op₁ op).1 (fitsLeft_node.1 h)
    have hright : FitsLeft op r := fun op₂ hop₂ => by
      have hle := (hr op₂ hop₂).1
      exact ⟨hop₁.1.trans hle, fun hpow => (hop₁.2 hpow).trans_le hle⟩
    intro op' hop'
    rcases List.mem_append.1 hop' with hop' | hop'
    · exact ihr hright hresp op' hop'
    · rw [List.mem_singleton.1 hop']
      exact fitsLeft_node.1 h

/-- What fits to the right of an operator begins with what does. -/
theorem FitsRight.left {w op : Operator} {l r : Bracketing} (h : FitsRight w (node op l r))
    (hl : FitsLeft op l) : FitsRight w l := fun op' hop' => by
  have hop := (precedes_eq_false_iff w op).1 (fitsRight_node.1 h)
  have hle := (hl op' hop').1
  exact ⟨hop.1.trans hle, fun hpow => (hop.2 hpow).trans_le hle⟩

end Bracketing

theorem takeWhile_append_of_all {p : Operator → Bool} {xs ys : List Operator}
    (hxs : ∀ x ∈ xs, p x = true) (hys : ∀ y ∈ ys.head?, p y = false) :
    (xs ++ ys).takeWhile p = xs ∧ (xs ++ ys).dropWhile p = ys := by
  rw [List.takeWhile_append_of_pos hxs, List.dropWhile_append_of_pos hxs]
  cases ys with
  | nil => simp
  | cons y ys => simp [hys y rfl]

theorem arrange_operand (waiting : List Operator) (o : Operand) (rest : List Token) :
    arrange true waiting (.operand o :: rest) =
      (.operand o :: ·) <$> arrange false waiting rest := by
  rw [arrange]

/-- The line of a bracketing is read without disturbing what waits below: its operators make
each other come first, in the order of the bracketing, and no other. -/
theorem arrange_inorder {t : Bracketing} (ht : t.Respects) {waiting : List Operator}
    (hwaiting : ∀ op ∈ waiting.head?, FitsRight op t) (rest : List Token) :
    arrange true waiting (t.inorder ++ rest) =
      (t.written ++ ·) <$> arrange false (t.waiting ++ waiting) rest := by
  induction t generalizing waiting rest with
  | leaf o => exact arrange_operand waiting o rest
  | node op l r ihl ihr =>
    obtain ⟨hl, hr, htl, htr⟩ := ht
    have hbelow : ∀ w ∈ waiting.head?, precedes w op = false := fun w hw =>
      fitsRight_node.1 (hwaiting w hw)
    -- at `op` all that the left operand left waiting is written and nothing of what was below
    obtain ⟨htake, hdrop⟩ := takeWhile_append_of_all (hl.precedes_of_mem htl) hbelow
    have hright : ∀ w ∈ (op :: waiting).head?, FitsRight w r := fun w hw => by
      cases hw
      exact hr
    have hleft : (node op l r).waiting ++ waiting = r.waiting ++ op :: waiting := by
      simp [Bracketing.waiting]
    have hwritten (post : List Token) : (node op l r).written ++ post =
        l.written ++ (l.waiting.map Token.operator ++ (r.written ++ post)) := by
      simp [written, ← l.written_append_waiting]
    rw [inorder, List.append_assoc, List.cons_append,
      ihl htl (fun w hw => (hwaiting w hw).left hl), arrange, htake, hdrop,
      ihr htr hright, Functor.map_map, Functor.map_map, hleft]
    simp only [hwritten]

theorem ofTokens_inorder {t : Bracketing} (ht : t.Respects) :
    ofTokens t.inorder = .ok t.postorder := by
  have hnone : ∀ op ∈ ([] : List Operator).head?, FitsRight op t := fun op hop => by cases hop
  have harrange := arrange_inorder ht hnone []
  rw [List.append_nil, List.append_nil, arrange] at harrange
  rw [ofTokens, harrange, ← t.written_append_waiting]
  rfl

/-- A line has only one bracketing that respects the priorities. -/
theorem Bracketing.Respects.unique {t t' : Bracketing} (ht : t.Respects) (ht' : t'.Respects)
    (h : t.inorder = t'.inorder) : t = t' := by
  have hline : (.ok t.postorder : Except Fault (List Token)) = .ok t'.postorder := by
    rw [← ofTokens_inorder ht, h, ofTokens_inorder ht']
  exact postorder_injective (Except.ok.inj hline)

theorem alternates_of_arrange {tokens post : List Token} {waiting : List Operator}
    (h : arrange true waiting tokens = .ok post) : Alternates tokens := by
  match tokens with
  | [] => cases h
  | .operator op :: rest => cases h
  | [.operand o] => exact .last o
  | .operand o :: .operand o' :: rest => cases h
  | .operand o :: .operator op :: rest =>
    rw [arrange_operand, arrange] at h
    obtain ⟨_, h, -⟩ := ok_of_map_eq_ok h
    obtain ⟨_, h, -⟩ := ok_of_map_eq_ok h
    exact .cons o op (alternates_of_arrange h)

theorem alternates_of_ofTokens {tokens line : List Token} (h : ofTokens tokens = .ok line) :
    Alternates tokens := by
  rw [ofTokens] at h
  cases harrange : arrange true [] tokens with
  | error cause =>
    rw [harrange] at h
    cases h
  | ok post => exact alternates_of_arrange harrange

/-! ## The tree of a postfix form -/

namespace Bracketing

section

variable {m : Type → Type} [Monad m] [MonadExceptOf Fault m]

/-- The tree of a bracketing, its operands asked for from left to right and every operation
measured as soon as it is made. -/
def assemble (options : Options) (resolve : Operand → m Expr) (line : List Token) :
    Bracketing → m Expr
  | leaf o => resolve o
  | node op l r => do
    let a ← l.assemble options resolve line
    let b ← r.assemble options resolve line
    let e := Expr.binary options op a b
    if options.limits.height < e.height then throwThe Fault (tooTall options (Token.lineChars line))
    else pure e

variable [LawfulMonad m]

/-- The stack program of a postfix form pushes its tree, if faults cut a program short. -/
theorem run_postorder (hthrow : ∀ {α β : Type} (f : Fault) (next : α → m β),
      (throwThe Fault f >>= next) = throwThe Fault f)
    (options : Options) (resolve : Operand → m Expr) (line : List Token) (t : Bracketing)
    (stack : List Expr) :
    t.postorder.foldlM (step options resolve line) stack =
      (· :: stack) <$> t.assemble options resolve line := by
  induction t generalizing stack with
  | leaf o => simp [postorder, assemble, step]
  | node op l r ihl ihr =>
    simp only [postorder, List.foldlM_append, ihl, ihr, assemble, map_eq_pure_bind, bind_assoc,
      pure_bind]
    refine bind_congr fun a => bind_congr fun b => ?_
    rw [List.foldlM_cons, step]
    split
    · -- too tall: the fault ends the run, and on the other side it ends the tree
      rw [hthrow, hthrow]
    · simp

theorem build_postorder (hthrow : ∀ {α β : Type} (f : Fault) (next : α → m β),
      (throwThe Fault f >>= next) = throwThe Fault f)
    (options : Options) (resolve : Operand → m Expr) (t : Bracketing) :
    build options resolve t.postorder = t.assemble options resolve t.postorder := by
  rw [build, run_postorder hthrow]
  simp

end

/-- Under a sufficient limit the measuring goes unnoticed. -/
theorem assemble_eq_ok {options : Options} {resolve : Operand → Expr} {line : List Token}
    {t : Bracketing} (h : (t.tree (m := Id) options resolve).height ≤ options.limits.height) :
    t.assemble options (fun o => (.ok (resolve o) : Except Fault Expr)) line =
      .ok (t.tree (m := Id) options resolve) := by
  induction t with
  | leaf o => rfl
  | node op l r ihl ihr =>
    obtain ⟨hl, hr⟩ := Grammar.height_binary_le h
    rw [assemble, ihl hl, ihr hr]
    exact if_neg (Nat.not_lt.2 h)

/-- A step that succeeds hands its result and its state to the next one. -/
theorem run_bind_of_ok {σ α β : Type} {x : ExceptT Fault (StateM σ) α} {a : α} {s s' : σ}
    (h : x.run.run s = (.ok a, s')) (next : α → ExceptT Fault (StateM σ) β) :
    (x >>= next).run.run s = (next a).run.run s' := by
  rw [ExceptT.run_bind, StateT.run_bind, h]
  rfl

/-- The same with operands that depend on a state and change it. -/
theorem run_assemble {σ : Type} {options : Options} {resolve : Operand → StateM σ Expr}
    {line : List Token} {t : Bracketing} {s : σ}
    (h : ((t.tree options resolve).run s).1.height ≤ options.limits.height) :
    (t.assemble options (fun o => (liftM (resolve o) : ExceptT Fault (StateM σ) Expr))
      line).run.run s =
        (.ok ((t.tree options resolve).run s).1, ((t.tree options resolve).run s).2) := by
  induction t generalizing s with
  | leaf o => rfl
  | node op l r ihl ihr =>
    obtain ⟨hl, hr⟩ := Grammar.height_binary_le h
    have hright := ihr (s := ((l.tree options resolve).run s).2) hr
    rw [assemble, run_bind_of_ok (ihl hl), run_bind_of_ok hright]
    exact congrArg (fun x : ExceptT Fault (StateM σ) Expr => x.run.run _)
      (if_neg (Nat.not_lt.2 h))

end Bracketing

/-! ## Lines, postfix forms and trees -/

/-- A line, its postfix form and its trees belong to one bracketing, the only one of the line
that respects the priorities. -/
structure BelongsTo (tokens line : List Token) (t : Bracketing) : Prop where
  inorder : t.inorder = tokens
  respects : t.Respects
  unique : ∀ t' : Bracketing, t'.inorder = tokens → t'.Respects → t' = t
  perm : line.Perm tokens
  operands_eq : operands line = operands tokens
  build_eq : ∀ (options : Options) (resolve : Operand → Expr),
    (t.tree (m := Id) options resolve).height ≤ options.limits.height →
      build options (fun o => (.ok (resolve o) : Except Fault Expr)) line =
        .ok (t.tree (m := Id) options resolve)
  run_build_eq : ∀ {σ : Type} (options : Options) (resolve : Operand → StateM σ Expr) (s : σ),
    ((t.tree options resolve).run s).1.height ≤ options.limits.height →
      (build options (fun o => (liftM (resolve o) : ExceptT Fault (StateM σ) Expr))
        line).run.run s =
          (.ok ((t.tree options resolve).run s).1, ((t.tree options resolve).run s).2)

theorem Bracketing.Respects.belongsTo {t : Bracketing} (ht : t.Respects) :
    BelongsTo t.inorder t.postorder t where
  inorder := rfl
  respects := ht
  unique _ hline ht' := ht'.unique ht hline
  perm := t.perm_postorder
  operands_eq := t.operands_postorder
  build_eq options resolve hheight := by
    rw [build_postorder fun _ _ => rfl]
    exact assemble_eq_ok hheight
  run_build_eq options resolve s hheight := by
    rw [build_postorder fun _ _ => rfl]
    exact run_assemble hheight

/-- **Grouping by priority.**  A line has a postfix form exactly if operands and operators
alternate, from an operand to an operand.  The form has the tokens of the line with the operands
in their order, and the tree built from it, whatever the operands stand for, is that of the only
bracketing of the line that respects priorities and associativities. -/
theorem ofTokens_bracketing (tokens : List Token) :
    ((∃ line, ofTokens tokens = .ok line) ↔ Alternates tokens) ∧
      ∀ line, ofTokens tokens = .ok line → ∃ t : Bracketing, BelongsTo tokens line t := by
  refine ⟨⟨fun ⟨line, h⟩ => alternates_of_ofTokens h, fun h => ?_⟩, fun line hline => ?_⟩
  · obtain ⟨t, rfl, ht⟩ := h.exists_respects
    exact ⟨t.postorder, ofTokens_inorder ht⟩
  · obtain ⟨t, rfl, ht⟩ := (alternates_of_ofTokens hline).exists_respects
    rw [ofTokens_inorder ht] at hline
    cases hline
    exact ⟨t, ht.belongsTo⟩

/-- `2 ^ 3 ^ 2 - (5 - 1) - 4`: powers to the right, differences to the left, and a group that is
an operand like any other. -/
theorem ofTokens_bracketing_powers_and_differences :
    let atom (c : Char) : Token := .operand (.atom [c])
    let group : Token := .operand (.group false ['5', '-', '1'])
    let tokens := [atom '2', .operator .pow, atom '3', .operator .pow, atom '2', .operator .sub,
      group, .operator .sub, atom '4']
    let line := [atom '2', atom '3', atom '2', .operator .pow, .operator .pow, group,
      .operator .sub, atom '4', .operator .sub]
    ofTokens tokens = .ok line ∧ ∃ t : Bracketing, BelongsTo tokens line t := by
  intro atom group tokens line
  have hline : ofTokens tokens = .ok line := rfl
  exact ⟨hline, (ofTokens_bracketing tokens).2 line hline⟩

end Postfix
end Reckoner
