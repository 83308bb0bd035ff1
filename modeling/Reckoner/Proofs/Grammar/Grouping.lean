import Mathlib
import Reckoner.Expr.Postfix

/-!
# Grouping a line

A line is a first operand and operators with their right operands.  `group` makes a
tree of it in three passes, one for each priority: powers to the right, products to the
left, sums to the left; all its operations get the same options.  The calculator does it
in one pass with a stack of waiting operators (`Postfix.arrange`, `Postfix.build`); what
such a state stands for is the tree of the line it has read so far, `unwind`, and it is not
changed when an operator takes its operands (`unwind_reduce`).  The two agree:

* `exists_of_build`: a tree that is built is the tree of the line;
* `build_of_resolved`: the tree of a line is built unless it is too tall.
-/

namespace Reckoner
namespace Grammar

variable {o : Options}

/-! ## Three passes -/

/-- Chains of powers group to the right. -/
def powers (o : Options) : Expr → List (Operator × Expr) → Expr × List (Operator × Expr)
  | e, [] => (e, [])
  | e, (op, x) :: rest =>
    let (y, rest) := powers o x rest
    if op = .pow then (.binary o op e y, rest) else (e, (op, y) :: rest)

/-- Chains of products and quotients group to the left. -/
def products (o : Options) : Expr → List (Operator × Expr) → Expr × List (Operator × Expr)
  | e, [] => (e, [])
  | e, (op, x) :: rest =>
    if op = .mul ∨ op = .div then products o (.binary o op e x) rest
    else
      let (y, rest) := products o x rest
      (e, (op, y) :: rest)

/-- All operators group to the left. -/
def sums (o : Options) (e : Expr) (rest : List (Operator × Expr)) : Expr :=
  rest.foldl (fun e (op, x) => .binary o op e x) e

/-- The tree of a line: powers first, then products, then sums. -/
def group (o : Options) (e : Expr) (rest : List (Operator × Expr)) : Expr :=
  let (e, rest) := powers o e rest
  let (e, rest) := products o e rest
  sums o e rest

/-- The line after the first two passes. -/
def terms (o : Options) (e : Expr) (rest : List (Operator × Expr)) :
    Expr × List (Operator × Expr) :=
  products o (powers o e rest).1 (powers o e rest).2

theorem group_eq (e : Expr) (rest : List (Operator × Expr)) :
    group o e rest = sums o (terms o e rest).1 (terms o e rest).2 := rfl

theorem terms_congr {a b : Expr} {rest rest' : List (Operator × Expr)}
    (h : powers o a rest = powers o b rest') : terms o a rest = terms o b rest' := by
  rw [terms, terms, h]

theorem group_congr {a b : Expr} {rest rest' : List (Operator × Expr)}
    (h : terms o a rest = terms o b rest') : group o a rest = group o b rest' := by
  rw [group_eq, group_eq, h]

theorem powers_cons_pow (e x : Expr) (rest : List (Operator × Expr)) :
    powers o e ((.pow, x) :: rest) =
      (.binary o .pow e (powers o x rest).1, (powers o x rest).2) := rfl

theorem powers_cons_of_ne {op : Operator} (h : op ≠ .pow) (e x : Expr)
    (rest : List (Operator × Expr)) :
    powers o e ((op, x) :: rest) = (e, (op, (powers o x rest).1) :: (powers o x rest).2) :=
  if_neg h

theorem products_cons {op : Operator} (h : op = .mul ∨ op = .div) (e x : Expr)
    (rest : List (Operator × Expr)) :
    products o e ((op, x) :: rest) = products o (.binary o op e x) rest := by
  rw [products, if_pos h]

theorem products_cons_of_not {op : Operator} (h : ¬(op = .mul ∨ op = .div)) (e x : Expr)
    (rest : List (Operator × Expr)) :
    products o e ((op, x) :: rest) = (e, (op, (products o x rest).1) :: (products o x rest).2) :=
  if_neg h

/-- An operand after a sum stays by itself in the first two passes. -/
theorem terms_cons_of_sum {op : Operator} (h : op = .add ∨ op = .sub) (e x : Expr)
    (rest : List (Operator × Expr)) :
    terms o e ((op, x) :: rest) = (e, (op, (terms o x rest).1) :: (terms o x rest).2) := by
  have hpow : op ≠ .pow := by rcases h with rfl | rfl <;> decide
  have hmul : ¬(op = .mul ∨ op = .div) := by rcases h with rfl | rfl <;> decide
  rw [terms, powers_cons_of_ne hpow, products_cons_of_not hmul]
  rfl

/-! ## Taking two operands early

An operator may take its operands before the rest of the line is looked at if the
operator after it does not take the right one away. -/

theorem ne_pow_of_precedes {op next : Operator} (h : Postfix.precedes op next = true) :
    next ≠ .pow := by
  cases op <;> cases next <;> revert h <;> decide

theorem not_product_of_precedes_sum {op next : Operator} (hop : op = .add ∨ op = .sub)
    (h : Postfix.precedes op next = true) : ¬(next = .mul ∨ next = .div) := by
  rcases hop with rfl | rfl <;> cases next <;> revert h <;> decide

theorem precedes_sum {op : Operator} (hop : op = .add ∨ op = .sub) (lower : Operator) :
    Postfix.precedes lower op = true := by
  rcases hop with rfl | rfl <;> cases lower <;> decide

theorem sum_of_not_precedes_product {op lower : Operator} (hop : op = .mul ∨ op = .div)
    (h : Postfix.precedes lower op = false) : lower = .add ∨ lower = .sub := by
  rcases hop with rfl | rfl <;> cases lower <;> revert h <;> decide

/-- The first operator of the rest, if there is one, comes after `op`. -/
def Before (op : Operator) (rest : List (Operator × Expr)) : Prop :=
  ∀ p ∈ rest.head?, Postfix.precedes op p.1 = true

theorem powers_of_before (o : Options) {op : Operator} {rest : List (Operator × Expr)}
    (h : Before op rest) :
    ∃ rest', Before op rest' ∧ ∀ e, powers o e rest = (e, rest') := by
  cases rest with
  | nil => exact ⟨[], h, fun e => rfl⟩
  | cons p rest =>
    obtain ⟨next, x⟩ := p
    have hnext : next ≠ .pow := ne_pow_of_precedes (h (next, x) rfl)
    refine ⟨(next, (powers o x rest).1) :: (powers o x rest).2, ?_, fun e =>
      powers_cons_of_ne hnext e x rest⟩
    intro p hp
    cases hp
    exact h (next, x) rfl

theorem powers_pow {a b : Expr} {rest : List (Operator × Expr)} (h : Before .pow rest) :
    powers o a ((.pow, b) :: rest) = powers o (.binary o .pow a b) rest := by
  obtain ⟨rest', -, hrest⟩ := powers_of_before o h
  rw [powers_cons_pow, hrest, hrest]

theorem terms_product {op : Operator} {a b : Expr} {rest : List (Operator × Expr)}
    (hop : op = .mul ∨ op = .div) (h : Before op rest) :
    terms o a ((op, b) :: rest) = terms o (.binary o op a b) rest := by
  obtain ⟨rest', -, hrest⟩ := powers_of_before o h
  have hpow : op ≠ .pow := by rcases hop with rfl | rfl <;> decide
  rw [terms, powers_cons_of_ne hpow, products_cons hop, terms]
  simp only [hrest]

theorem group_sum {op : Operator} {a b : Expr} {rest : List (Operator × Expr)}
    (hop : op = .add ∨ op = .sub) (h : Before op rest) :
    group o a ((op, b) :: rest) = group o (.binary o op a b) rest := by
  obtain ⟨rest', hbefore, hrest⟩ := powers_of_before o h
  -- what the second pass makes of the operands does not depend on the first one
  have hproducts : ∃ rest'', ∀ e, products o e rest' = (e, rest'') := by
    cases rest' with
    | nil => exact ⟨[], fun e => rfl⟩
    | cons p rest' =>
      obtain ⟨next, x⟩ := p
      have hnext := not_product_of_precedes_sum hop (hbefore (next, x) rfl)
      exact ⟨_, fun e => products_cons_of_not hnext e x rest'⟩
  obtain ⟨rest'', hrest''⟩ := hproducts
  rw [group_eq, group_eq, terms_cons_of_sum hop, terms, terms]
  simp only [hrest, hrest'']
  rfl

/-! ## States of the stack program -/

/-- The tree of the line that a state stands for: the waiting operators, the topmost
operand and the ones below it, and the rest of the line. -/
def unwind (o : Options) : List Operator → Expr → List Expr → List (Operator × Expr) → Expr
  | op :: waiting, right, left :: stack, rest => unwind o waiting left stack ((op, right) :: rest)
  | _, right, _, rest => group o right rest

/-- An operator waits on top of another one only if it takes its operands first. -/
def Waits (waiting : List Operator) : Prop :=
  waiting.IsChain fun upper lower => Postfix.precedes lower upper = false

theorem unwind_congr_powers {waiting : List Operator} {stack : List Expr} {a b : Expr}
    {rest rest' : List (Operator × Expr)} (h : powers o a rest = powers o b rest') :
    unwind o waiting a stack rest = unwind o waiting b stack rest' := by
  induction waiting generalizing a b stack rest rest' with
  | nil => exact group_congr (terms_congr h)
  | cons op waiting ih =>
    cases stack with
    | nil => exact group_congr (terms_congr h)
    | cons left stack =>
      refine ih ?_
      rw [powers, powers, h]

theorem unwind_congr_terms {waiting : List Operator} {stack : List Expr} {a b : Expr}
    {rest rest' : List (Operator × Expr)} (hwaiting : ∀ op ∈ waiting, op = .add ∨ op = .sub)
    (h : terms o a rest = terms o b rest') :
    unwind o waiting a stack rest = unwind o waiting b stack rest' := by
  induction waiting generalizing a b stack rest rest' with
  | nil => exact group_congr h
  | cons op waiting ih =>
    cases stack with
    | nil => exact group_congr h
    | cons left stack =>
      have hop := hwaiting op (by simp)
      refine ih (fun op' hop' => hwaiting op' (by simp [hop'])) ?_
      rw [terms_cons_of_sum hop, terms_cons_of_sum hop, h]

theorem Waits.eq_nil_of_sum {op : Operator} {waiting : List Operator}
    (h : Waits (op :: waiting)) (hop : op = .add ∨ op = .sub) : waiting = [] := by
  cases waiting with
  | nil => rfl
  | cons lower waiting =>
    have hlower := (List.isChain_cons_cons.1 h).1
    rw [precedes_sum hop] at hlower
    cases hlower

theorem Waits.sum_of_product {op : Operator} {waiting : List Operator}
    (h : Waits (op :: waiting)) (hop : op = .mul ∨ op = .div) :
    ∀ lower ∈ waiting, lower = .add ∨ lower = .sub := by
  cases waiting with
  | nil =>
    intro lower hlower
    simp at hlower
  | cons lower waiting =>
    obtain ⟨hlower, hrest⟩ := List.isChain_cons_cons.1 h
    have hsum := sum_of_not_precedes_product hop hlower
    rw [Waits.eq_nil_of_sum hrest hsum]
    intro op' hop'
    rwa [List.mem_singleton.1 hop']

/-- An operator that takes its operands leaves the tree of the line as it is. -/
theorem unwind_reduce {op : Operator} {waiting : List Operator} {a b : Expr}
    {stack : List Expr} {rest : List (Operator × Expr)} (hwaits : Waits (op :: waiting))
    (h : Before op rest) :
    unwind o (op :: waiting) b (a :: stack) rest =
      unwind o waiting (.binary o op a b) stack rest := by
  show unwind o waiting a stack ((op, b) :: rest) = _
  have hcases : op = .pow ∨ (op = .mul ∨ op = .div) ∨ op = .add ∨ op = .sub := by
    cases op <;> decide
  -- what waits below binds less tightly, so the passes before that of `op` leave it alone
  rcases hcases with rfl | hop | hop
  · exact unwind_congr_powers (powers_pow h)
  · exact unwind_congr_terms (hwaits.sum_of_product hop) (terms_product hop h)
  · rw [hwaits.eq_nil_of_sum hop]
    exact group_sum hop h

theorem Waits.cons_dropWhile {waiting : List Operator} (h : Waits waiting) (op : Operator) :
    Waits (op :: waiting.dropWhile (Postfix.precedes · op)) := by
  refine List.isChain_cons.2 ⟨fun lower hlower => ?_, h.suffix (List.dropWhile_suffix _)⟩
  have hhead := List.head?_dropWhile_not (Postfix.precedes · op) waiting
  rw [Option.mem_def.1 hlower] at hhead
  simpa using hhead

/-- The operators on top that satisfy `take` take their operands. -/
def reduceWhile (o : Options) (take : Operator → Bool) :
    List Operator → Expr → List Expr → Expr × List Expr
  | op :: waiting, right, left :: stack =>
    if take op then reduceWhile o take waiting (.binary o op left right) stack
    else (right, left :: stack)
  | _, right, stack => (right, stack)

theorem length_reduceWhile {take : Operator → Bool} {waiting : List Operator} {b : Expr}
    {stack : List Expr} (hlength : stack.length = waiting.length) :
    (reduceWhile o take waiting b stack).2.length = (waiting.dropWhile take).length := by
  induction waiting generalizing b stack with
  | nil => exact hlength
  | cons op waiting ih =>
    obtain ⟨a, stack, rfl⟩ := List.exists_cons_of_length_eq_add_one hlength
    rw [reduceWhile, List.dropWhile_cons]
    split
    · exact ih (Nat.succ.inj hlength)
    · exact hlength

theorem unwind_reduceWhile {take : Operator → Bool} {waiting : List Operator} {b : Expr}
    {stack : List Expr} {rest : List (Operator × Expr)}
    (hlength : stack.length = waiting.length) (hwaits : Waits waiting)
    (htake : ∀ op, take op = true → Before op rest) :
    unwind o (waiting.dropWhile take) (reduceWhile o take waiting b stack).1
      (reduceWhile o take waiting b stack).2 rest = unwind o waiting b stack rest := by
  induction waiting generalizing b stack with
  | nil => rfl
  | cons op waiting ih =>
    obtain ⟨a, stack, rfl⟩ := List.exists_cons_of_length_eq_add_one hlength
    rw [reduceWhile, List.dropWhile_cons]
    split
    · rename_i hop
      rw [unwind_reduce hwaits (htake op hop)]
      exact ih (Nat.succ.inj hlength) hwaits.tail
    · rfl

/-! ## Heights -/

/-- No operand of a line is taller than `limit`. -/
def Bounded (limit : Nat) (e : Expr) (rest : List (Operator × Expr)) : Prop :=
  e.height ≤ limit ∧ ∀ p ∈ rest, p.2.height ≤ limit

theorem bounded_cons {limit : Nat} {op : Operator} {e x : Expr}
    {rest : List (Operator × Expr)} :
    Bounded limit e ((op, x) :: rest) ↔ e.height ≤ limit ∧ Bounded limit x rest := by
  simp only [Bounded, List.forall_mem_cons]

theorem height_binary_le {limit : Nat} {op : Operator} {a b : Expr}
    (h : (Expr.binary o op a b).height ≤ limit) : a.height ≤ limit ∧ b.height ≤ limit := by
  rw [Expr.height] at h
  omega

theorem bounded_of_powers {limit : Nat} {e : Expr} {rest : List (Operator × Expr)}
    (h : Bounded limit (powers o e rest).1 (powers o e rest).2) : Bounded limit e rest := by
  induction rest generalizing e with
  | nil => exact h
  | cons p rest ih =>
    obtain ⟨op, x⟩ := p
    rw [bounded_cons]
    by_cases hop : op = .pow
    · subst hop
      rw [powers_cons_pow] at h
      have hboth := height_binary_le h.1
      exact ⟨hboth.1, ih ⟨hboth.2, h.2⟩⟩
    · rw [powers_cons_of_ne hop, bounded_cons] at h
      exact ⟨h.1, ih h.2⟩

theorem bounded_of_products {limit : Nat} {e : Expr} {rest : List (Operator × Expr)}
    (h : Bounded limit (products o e rest).1 (products o e rest).2) : Bounded limit e rest := by
  induction rest generalizing e with
  | nil => exact h
  | cons p rest ih =>
    obtain ⟨op, x⟩ := p
    rw [bounded_cons]
    by_cases hop : op = .mul ∨ op = .div
    · rw [products_cons hop] at h
      obtain ⟨hbinary, hrest⟩ := ih h
      have hboth := height_binary_le hbinary
      exact ⟨hboth.1, hboth.2, hrest⟩
    · rw [products_cons_of_not hop, bounded_cons] at h
      exact ⟨h.1, ih h.2⟩

theorem bounded_of_sums {limit : Nat} {e : Expr} {rest : List (Operator × Expr)}
    (h : (sums o e rest).height ≤ limit) : Bounded limit e rest := by
  induction rest generalizing e with
  | nil => exact ⟨h, fun p hp => absurd hp List.not_mem_nil⟩
  | cons p rest ih =>
    obtain ⟨hbinary, hrest⟩ := ih h
    have hboth := height_binary_le hbinary
    exact bounded_cons.2 ⟨hboth.1, hboth.2, hrest⟩

/-- The tree of a line is at least as tall as its operands. -/
theorem bounded_of_group {limit : Nat} {e : Expr} {rest : List (Operator × Expr)}
    (h : (group o e rest).height ≤ limit) : Bounded limit e rest :=
  bounded_of_powers (bounded_of_products (bounded_of_sums h))

theorem bounded_of_unwind {limit : Nat} {waiting : List Operator} {e : Expr}
    {stack : List Expr} {rest : List (Operator × Expr)}
    (h : (unwind o waiting e stack rest).height ≤ limit) : Bounded limit e rest := by
  induction waiting generalizing e stack rest with
  | nil => exact bounded_of_group h
  | cons op waiting ih =>
    cases stack with
    | nil => exact bounded_of_group h
    | cons left stack => exact (bounded_cons.1 (ih h)).2

/-- What the height of the tree of a line cannot exceed: every operator adds at most one to
the heights of its operands together. -/
def weight (e : Expr) (rest : List (Operator × Expr)) : Nat :=
  e.height + (rest.map fun p => p.2.height + 1).sum

theorem weight_cons (op : Operator) (e x : Expr) (rest : List (Operator × Expr)) :
    weight e ((op, x) :: rest) = e.height + 1 + weight x rest := by
  simp only [weight, List.map_cons, List.sum_cons]
  omega

theorem weight_binary_le (op : Operator) (e x : Expr) (rest : List (Operator × Expr)) :
    weight (.binary o op e x) rest ≤ e.height + 1 + weight x rest := by
  simp only [weight, Expr.height]
  omega

theorem weight_powers_le (e : Expr) (rest : List (Operator × Expr)) :
    weight (powers o e rest).1 (powers o e rest).2 ≤ weight e rest := by
  induction rest generalizing e with
  | nil => exact le_rfl
  | cons p rest ih =>
    obtain ⟨op, x⟩ := p
    have hx := ih x
    rw [weight_cons]
    by_cases hop : op = .pow
    · subst hop
      rw [powers_cons_pow]
      exact (weight_binary_le _ _ _ _).trans (Nat.add_le_add_left hx _)
    · rw [powers_cons_of_ne hop]
      exact (weight_cons _ _ _ _).trans_le (Nat.add_le_add_left hx _)

theorem weight_products_le (e : Expr) (rest : List (Operator × Expr)) :
    weight (products o e rest).1 (products o e rest).2 ≤ weight e rest := by
  induction rest generalizing e with
  | nil => exact le_rfl
  | cons p rest ih =>
    obtain ⟨op, x⟩ := p
    rw [weight_cons]
    by_cases hop : op = .mul ∨ op = .div
    · rw [products_cons hop]
      exact (ih _).trans (weight_binary_le _ _ _ _)
    · rw [products_cons_of_not hop]
      exact (weight_cons _ _ _ _).trans_le (Nat.add_le_add_left (ih x) _)

theorem height_sums_le (e : Expr) (rest : List (Operator × Expr)) :
    (sums o e rest).height ≤ weight e rest := by
  induction rest generalizing e with
  | nil => exact le_rfl
  | cons p rest ih =>
    obtain ⟨op, x⟩ := p
    rw [weight_cons]
    exact (ih _).trans (weight_binary_le _ _ _ _)

theorem height_group_le (e : Expr) (rest : List (Operator × Expr)) :
    (group o e rest).height ≤ weight e rest :=
  (height_sums_le _ _).trans ((weight_products_le _ _).trans (weight_powers_le _ _))

/-! ## Runs of the stack program -/

section Run

variable {options : Options} {resolve : Operand → Except Fault Expr} {line : List Token}

/-- The rest of a line of tokens, with the trees its operands stand for. -/
inductive Resolved (resolve : Operand → Except Fault Expr) :
    List Token → List (Operator × Expr) → Prop where
  | nil : Resolved resolve [] []
  | cons {op : Operator} {o : Operand} {x : Expr} {tokens : List Token}
      {rest : List (Operator × Expr)} (hx : resolve o = .ok x)
      (hrest : Resolved resolve tokens rest) :
      Resolved resolve (.operator op :: .operand o :: tokens) ((op, x) :: rest)

theorem step_operator (op : Operator) (a b : Expr) (stack : List Expr) :
    Postfix.step options resolve line (b :: a :: stack) (.operator op) =
      if options.limits.height < (Expr.binary options op a b).height
      then .error (Postfix.tooTall options (Token.lineChars line))
      else .ok (.binary options op a b :: stack) := rfl

/-- Operators that run leave the stack reduced. -/
theorem run_operators_sound {take : Operator → Bool} {waiting : List Operator} {b : Expr}
    {stack result : List Expr} (hlength : stack.length = waiting.length)
    (h : ((waiting.takeWhile take).map Token.operator).foldlM
      (Postfix.step options resolve line) (b :: stack) = .ok result) :
    result = (reduceWhile options take waiting b stack).1 ::
      (reduceWhile options take waiting b stack).2 := by
  induction waiting generalizing b stack with
  | nil =>
    cases h
    rfl
  | cons op waiting ih =>
    obtain ⟨a, stack, rfl⟩ := List.exists_cons_of_length_eq_add_one hlength
    rw [List.takeWhile_cons] at h
    rw [reduceWhile]
    split at h
    · rename_i hop
      rw [List.map_cons, List.foldlM_cons, step_operator] at h
      rw [if_pos hop]
      split at h
      · cases h
      · exact ih (Nat.succ.inj hlength) h
    · rename_i hop
      cases h
      rw [if_neg hop]

/-- Operators run unless the tree they are part of is too tall. -/
theorem run_operators_complete {take : Operator → Bool} {waiting : List Operator} {b : Expr}
    {stack : List Expr} {rest : List (Operator × Expr)}
    (hlength : stack.length = waiting.length) (hwaits : Waits waiting)
    (htake : ∀ op, take op = true → Before op rest)
    (hheight : (unwind options waiting b stack rest).height ≤ options.limits.height) :
    ((waiting.takeWhile take).map Token.operator).foldlM
        (Postfix.step options resolve line) (b :: stack) =
      .ok ((reduceWhile options take waiting b stack).1 ::
        (reduceWhile options take waiting b stack).2) := by
  induction waiting generalizing b stack with
  | nil => rfl
  | cons op waiting ih =>
    obtain ⟨a, stack, rfl⟩ := List.exists_cons_of_length_eq_add_one hlength
    rw [List.takeWhile_cons, reduceWhile]
    split
    · rename_i hop
      rw [unwind_reduce hwaits (htake op hop)] at hheight
      have hbinary := (bounded_of_unwind hheight).1
      rw [List.map_cons, List.foldlM_cons, step_operator, if_neg (by omega)]
      exact ih (Nat.succ.inj hlength) hwaits.tail hheight
    · rfl

theorem arrange_operator (waiting : List Operator) (op : Operator) (o : Operand)
    (tokens : List Token) :
    Postfix.arrange false waiting (.operator op :: .operand o :: tokens) =
      (fun post => (waiting.takeWhile (Postfix.precedes · op)).map Token.operator ++
        .operand o :: post) <$>
      Postfix.arrange false (op :: waiting.dropWhile (Postfix.precedes · op)) tokens := by
  rw [Postfix.arrange, Postfix.arrange]
  cases Postfix.arrange false (op :: waiting.dropWhile (Postfix.precedes · op)) tokens <;> rfl

theorem before_cons (op : Operator) (x : Expr) (rest : List (Operator × Expr)) :
    ∀ waiting, Postfix.precedes waiting op = true → Before waiting ((op, x) :: rest) := by
  intro waiting h p hp
  cases hp
  exact h

theorem reduceWhile_all {waiting : List Operator} {b : Expr} {stack : List Expr}
    (hlength : stack.length = waiting.length) (hwaits : Waits waiting) :
    reduceWhile options (fun _ => true) waiting b stack =
      (unwind options waiting b stack [], []) := by
  have hnone : waiting.dropWhile (fun _ => true) = [] := by simp
  have htree : unwind options (waiting.dropWhile fun _ => true)
      (reduceWhile options (fun _ => true) waiting b stack).1
      (reduceWhile options (fun _ => true) waiting b stack).2 [] =
      unwind options waiting b stack [] :=
    unwind_reduceWhile hlength hwaits fun op _ p hp => by cases hp
  have hstack : (reduceWhile options (fun _ => true) waiting b stack).2.length =
      (waiting.dropWhile fun _ => true).length := length_reduceWhile hlength
  rw [hnone] at htree hstack
  exact Prod.ext htree (List.eq_nil_of_length_eq_zero hstack)

/-- A run to the end of a line leaves the tree of the line. -/
theorem exists_of_run {tokens post : List Token} {waiting : List Operator} {b : Expr}
    {stack result : List Expr} (hlength : stack.length = waiting.length)
    (hwaits : Waits waiting) (hpost : Postfix.arrange false waiting tokens = .ok post)
    (hrun : post.foldlM (Postfix.step options resolve line) (b :: stack) = .ok result) :
    ∃ rest, Resolved resolve tokens rest ∧ result = [unwind options waiting b stack rest] := by
  -- operator and operand are taken together: in between, an operand is missing on the stack
  match tokens with
  | [] =>
    cases hpost
    have hall : waiting.takeWhile (fun _ => true) = waiting := by simp
    rw [← hall] at hrun
    have hresult := run_operators_sound hlength hrun
    rw [reduceWhile_all hlength hwaits] at hresult
    exact ⟨[], .nil, hresult⟩
  | .operand o :: tokens => cases hpost
  | [.operator op] => cases hpost
  | .operator op :: .operator op' :: tokens => cases hpost
  | .operator op :: .operand o :: tokens =>
    rw [arrange_operator] at hpost
    obtain ⟨post, hrest, rfl⟩ := ok_of_map_eq_ok hpost
    rw [List.foldlM_append] at hrun
    obtain ⟨reduced, hreduced, hrun⟩ := ok_of_bind_eq_ok hrun
    rw [List.foldlM_cons] at hrun
    obtain ⟨pushed, hpushed, hrun⟩ := ok_of_bind_eq_ok hrun
    obtain ⟨x, hx, hpushed⟩ := ok_of_bind_eq_ok hpushed
    cases hpushed
    rw [run_operators_sound hlength hreduced] at hrun
    obtain ⟨rest, hresolved, hresult⟩ := exists_of_run
      (by rw [List.length_cons, List.length_cons, length_reduceWhile hlength])
      (hwaits.cons_dropWhile op) hrest hrun
    refine ⟨(op, x) :: rest, .cons hx hresolved, ?_⟩
    rw [hresult, ← unwind_reduceWhile hlength hwaits (before_cons op x rest)]
    rfl
termination_by tokens.length

/-- The tree of a line is left by a run to its end unless it is too tall. -/
theorem run_of_resolved {tokens : List Token} {rest : List (Operator × Expr)}
    (hresolved : Resolved resolve tokens rest) {waiting : List Operator} {b : Expr}
    {stack : List Expr} (hlength : stack.length = waiting.length) (hwaits : Waits waiting)
    (hheight : (unwind options waiting b stack rest).height ≤ options.limits.height) :
    ∃ post, Postfix.arrange false waiting tokens = .ok post ∧
      ∀ line, post.foldlM (Postfix.step options resolve line) (b :: stack) =
        .ok [unwind options waiting b stack rest] := by
  induction hresolved generalizing waiting b stack with
  | nil =>
    refine ⟨waiting.map .operator, rfl, fun line => ?_⟩
    have hall : waiting.takeWhile (fun _ => true) = waiting := by simp
    have hrun : ((waiting.takeWhile fun _ => true).map Token.operator).foldlM
        (Postfix.step options resolve line) (b :: stack) = .ok
          ((reduceWhile options (fun _ => true) waiting b stack).1 ::
            (reduceWhile options (fun _ => true) waiting b stack).2) :=
      run_operators_complete hlength hwaits (fun op _ p hp => by cases hp) hheight
    rwa [hall, reduceWhile_all hlength hwaits] at hrun
  | @cons op o x tokens rest hx hrest ih =>
    have hbefore := before_cons op x rest
    have htree := unwind_reduceWhile (o := options) (b := b) hlength hwaits hbefore
    have hlength' : ((reduceWhile options (Postfix.precedes · op) waiting b stack).1 ::
        (reduceWhile options (Postfix.precedes · op) waiting b stack).2).length =
        (op :: waiting.dropWhile (Postfix.precedes · op)).length := by
      rw [List.length_cons, List.length_cons, length_reduceWhile hlength]
    obtain ⟨post, hpost, hfinish⟩ := ih hlength' (hwaits.cons_dropWhile op) (b := x)
      (by rw [← htree] at hheight; exact hheight)
    refine ⟨_, by rw [arrange_operator, hpost]; rfl, fun line => ?_⟩
    rw [List.foldlM_append, run_operators_complete hlength hwaits hbefore hheight]
    show List.foldlM (Postfix.step options resolve line) _ (.operand o :: post) = _
    rw [List.foldlM_cons, Postfix.step, hx]
    rw [← htree]
    exact hfinish line

end Run

/-! ## Whole lines -/

section Line

variable {options : Options} {resolve : Operand → Except Fault Expr}

/-- A tree that is built from a line of tokens is the tree of the line. -/
theorem exists_of_build {tokens : List Token} {e : Expr}
    (h : (Postfix.ofTokens tokens >>= Postfix.build options resolve) = .ok e) :
    ∃ o rest x xs, tokens = .operand o :: rest ∧ resolve o = .ok x ∧
      Resolved resolve rest xs ∧ e = group options x xs := by
  obtain ⟨line, hline, hbuild⟩ := ok_of_bind_eq_ok h
  obtain ⟨stack, hrun, hstack⟩ := ok_of_bind_eq_ok hbuild
  match tokens with
  | [] => cases hline
  | .operator op :: rest => cases hline
  | .operand o :: rest =>
    rw [Postfix.ofTokens, Postfix.arrange] at hline
    cases hpost : Postfix.arrange false [] rest with
    | error cause =>
      rw [hpost] at hline
      cases hline
    | ok post =>
      rw [hpost] at hline
      cases hline
      rw [List.foldlM_cons] at hrun
      obtain ⟨pushed, hpushed, hrun⟩ := ok_of_bind_eq_ok hrun
      obtain ⟨x, hx, hpushed⟩ := ok_of_bind_eq_ok hpushed
      cases hpushed
      obtain ⟨xs, hresolved, rfl⟩ := exists_of_run rfl List.isChain_nil hpost hrun
      cases hstack
      exact ⟨o, rest, x, xs, rfl, hx, hresolved, rfl⟩

/-- The tree of a line of tokens is built unless it is too tall. -/
theorem build_of_resolved {o : Operand} {tokens : List Token} {x : Expr}
    {rest : List (Operator × Expr)} (hx : resolve o = .ok x)
    (hresolved : Resolved resolve tokens rest)
    (hheight : (group options x rest).height ≤ options.limits.height) :
    (Postfix.ofTokens (.operand o :: tokens) >>= Postfix.build options resolve) =
      .ok (group options x rest) := by
  have hempty : ([] : List Expr).length = ([] : List Operator).length := rfl
  obtain ⟨post, hpost, hrun⟩ :=
    run_of_resolved hresolved (b := x) hempty List.isChain_nil hheight
  have hline : Postfix.ofTokens (.operand o :: tokens) = .ok (.operand o :: post) := by
    rw [Postfix.ofTokens, Postfix.arrange, hpost]
    rfl
  rw [hline]
  show Postfix.build options resolve (.operand o :: post) = _
  rw [Postfix.build, List.foldlM_cons, Postfix.step, hx]
  show (List.foldlM (Postfix.step options resolve (.operand o :: post)) [x] post >>= _) = _
  rw [hrun]
  rfl

end Line

end Grammar
end Reckoner
