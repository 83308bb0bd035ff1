import Reckoner.Fault

/-!
# Questions about two operands

A rule that may settle an operation looks at one operand, decides whether it needs
the other, and so on.  `Inquiry` is such a rule as data: a tree of questions, so
that which operand is looked at, and in what order, can be read off it.  `run`
answers the questions in any monad: with two known values, while counting the
questions, or by evaluating an operand on first demand.
-/

namespace Reckoner

/-- The two operands of an operation. -/
inductive Side where
  | left
  | right
  deriving DecidableEq, Repr

/-- The other operand. -/
def Side.other : Side → Side
  | left => right
  | right => left

@[simp] theorem Side.other_other (s : Side) : s.other.other = s := by cases s <;> rfl

/-- A decision that is reached by asking for the values of the operands. -/
inductive Inquiry (α : Type) where
  /-- The decision is made. -/
  | done (a : α)
  /-- The operation is impossible. -/
  | fail (f : Fault)
  /-- The value of one operand is needed to go on. -/
  | ask (side : Side) (next : Value → Inquiry α)

namespace Inquiry

variable {α β : Type}

/-- Goes on with a further inquiry once the first is decided. -/
def bind : Inquiry α → (α → Inquiry β) → Inquiry β
  | done a, f => f a
  | fail x, _ => fail x
  | ask side next, f => ask side fun v => (next v).bind f

instance : Monad Inquiry where
  pure := done
  bind := bind

/-- The value of one operand. -/
def valueOf (side : Side) : Inquiry Value := ask side done

@[simp] theorem pure_eq (a : α) : (pure a : Inquiry α) = done a := rfl

@[simp] theorem done_bind (a : α) (f : α → Inquiry β) : done a >>= f = f a := rfl

@[simp] theorem fail_bind (x : Fault) (f : α → Inquiry β) : fail x >>= f = fail x := rfl

@[simp] theorem ask_bind (side : Side) (next : Value → Inquiry α) (f : α → Inquiry β) :
    ask side next >>= f = ask side fun v => next v >>= f := rfl

@[simp] theorem valueOf_bind (side : Side) (f : Value → Inquiry β) :
    valueOf side >>= f = ask side f := rfl

/-! ## Answers -/

/-- Answers the questions of an inquiry.  An operand that fails when it is asked for
makes the inquiry fail. -/
def run {m : Type → Type} [Monad m] (read : Side → m Outcome) : Inquiry α → m (Except Fault α)
  | done a => pure (.ok a)
  | fail f => pure (.error f)
  | ask side next => do
    match ← read side with
    | .ok v => (next v).run read
    | .error f => pure (.error f)

/-- Settles an inquiry with both values at hand. -/
def settle (q : Inquiry α) (left right : Value) : Except Fault α :=
  q.run (m := Id) fun
    | .left => .ok left
    | .right => .ok right

@[simp] theorem settle_done (a : α) (l r : Value) : (done a).settle l r = .ok a := rfl

@[simp] theorem settle_fail (x : Fault) (l r : Value) :
    (fail x : Inquiry α).settle l r = .error x := rfl

@[simp] theorem settle_ask_left (next : Value → Inquiry α) (l r : Value) :
    (ask .left next).settle l r = (next l).settle l r := by
  unfold settle
  rw [run]
  rfl

@[simp] theorem settle_ask_right (next : Value → Inquiry α) (l r : Value) :
    (ask .right next).settle l r = (next r).settle l r := by
  unfold settle
  rw [run]
  rfl

/-- An inquiry can be settled part by part: the second part sees no more of the first
than what it decided. -/
theorem settle_bind (q : Inquiry α) (f : α → Inquiry β) (l r : Value) :
    (q >>= f).settle l r = q.settle l r >>= fun a => (f a).settle l r := by
  induction q with
  | done a => rfl
  | fail x => rfl
  | ask side next ih =>
    cases side with
    | left => simpa only [ask_bind, settle_ask_left] using ih l
    | right => simpa only [ask_bind, settle_ask_right] using ih r

end Inquiry
end Reckoner
