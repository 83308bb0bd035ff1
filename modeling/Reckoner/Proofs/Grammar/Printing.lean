import Mathlib
import Reckoner.Proofs.Grammar.Reread
import Reckoner.Proofs.Grammar.WithOptions

/-!
# A tree reads back from its own text

The trees that a parser makes are made of the names of its registry and of numbers that
literals can write (`Expr.Readable`): `readable_of_parse` follows the grammar, through signs
and grouping.  The text of such a tree, with parentheses around every operation, is one
operand of the grammar, and takes no more levels of parentheses than the tree is tall
(`signed_chars`).  So a parser with the same names and room for the tree reads the very same
tree from its text (`parse_text`).
-/

namespace Reckoner

/-! ## Numbers that literals write -/

namespace Value

/-- A canonical value that is no ratio. -/
def IsLiteral (v : Value) : Prop := v.Canonical ∧ v.isRatio = false

theorem isLiteral_integer (n : Int) : (integer n).IsLiteral := ⟨trivial, rfl⟩

theorem isLiteral_ofDecimal (d : Decimal) : (ofDecimal d).IsLiteral := by
  refine ⟨canonical_ofDecimal d, ?_⟩
  unfold ofDecimal
  simp only []
  split <;> rfl

theorem IsLiteral.neg {v : Value} (h : v.IsLiteral) : (-v).IsLiteral := by
  refine ⟨h.1.neg, ?_⟩
  cases v with
  | integer n => rfl
  | decimal d => rfl
  | ratio q => cases h.2

theorem isLiteral_of_readLiteral {text : List Char} {v : Value}
    (h : readLiteral text = .ok v) : v.IsLiteral := by
  rw [readLiteral_eq_ok_iff, literal?_eq_ok_iff] at h
  obtain ⟨p, e, -, -, rfl⟩ := h
  rw [LiteralParts.value]
  generalize (p.fraction.length : Int) - e = s
  cases s with
  | ofNat s => exact isLiteral_ofDecimal _
  | negSucc s => exact isLiteral_integer _

/-- The exact text of such a value is a literal with its sign. -/
theorem IsLiteral.signed_chars {v : Value} (h : v.IsLiteral) {r : Registry} {o : Options}
    {Inside : List Char → Expr → Prop} : Grammar.Signed r o Inside v.chars (.literal v) := by
  cases v with
  | integer n => exact signed_numeral n
  | decimal d =>
    have hd : Grammar.Signed r o Inside d.chars (.literal (scaled d.mantissa d.scale)) :=
      signed_fixedPoint d.mantissa d.scale
    rwa [scaled_eq_decimal h.1] at hd
  | ratio q => cases h.2

end Value

/-! ## Trees over a registry -/

namespace Expr

mutual

/-- The literals are numbers that literals write, the constants and the functions are those
that the registry has under their names, the calls have as many arguments as their function
accepts, and every node has the options `o`. -/
def Readable (r : Registry) (o : Options) : Expr → Prop
  | literal v => v.IsLiteral
  | constant name v =>
    Registry.isName name.toList = true ∧ r.constant? name = some ⟨name, v⟩
  | call options f args =>
    options = o ∧ Registry.isName f.name.toList = true ∧ r.function? f.name = some f ∧
      f.arity.accepts args.length = true ∧ AllReadable r o args
  | binary options _ left right => options = o ∧ Readable r o left ∧ Readable r o right

/-- The same for all expressions of a list. -/
def AllReadable (r : Registry) (o : Options) : List Expr → Prop
  | [] => True
  | e :: rest => Readable r o e ∧ AllReadable r o rest

end

variable {r : Registry} {o : Options}

theorem readable_literal {v : Value} : (literal v).Readable r o ↔ v.IsLiteral := by
  rw [Readable]

theorem readable_binary {op : Operator} {left right : Expr} :
    (binary o op left right).Readable r o ↔ left.Readable r o ∧ right.Readable r o := by
  simp [Readable]

theorem Readable.negate {e : Expr} (h : e.Readable r o) : (e.negate o).Readable r o := by
  cases e with
  | literal v => exact readable_literal.2 (readable_literal.1 h).neg
  | constant name v =>
    exact readable_binary.2 ⟨readable_literal.2 (Value.isLiteral_integer 0), h⟩
  | call options f args =>
    exact readable_binary.2 ⟨readable_literal.2 (Value.isLiteral_integer 0), h⟩
  | binary options op left right =>
    exact readable_binary.2 ⟨readable_literal.2 (Value.isLiteral_integer 0), h⟩

mutual

/-- A readable tree has the same options everywhere. -/
theorem Readable.withOptions_eq : ∀ {e : Expr}, e.Readable r o → e.withOptions o = e
  | literal v, _ => by rw [withOptions]
  | constant name v, _ => by rw [withOptions]
  | call options f args, h => by
    rw [Readable] at h
    obtain ⟨ho, -, -, -, hargs⟩ := h
    rw [withOptions, hargs.withOptionsAll_eq, ho]
  | binary options op left right, h => by
    rw [Readable] at h
    obtain ⟨ho, hleft, hright⟩ := h
    rw [withOptions, hleft.withOptions_eq, hright.withOptions_eq, ho]

theorem AllReadable.withOptionsAll_eq : ∀ {es : List Expr},
    AllReadable r o es → withOptionsAll o es = es
  | [], _ => by rw [withOptionsAll]
  | e :: rest, h => by
    rw [AllReadable] at h
    rw [withOptionsAll, h.1.withOptions_eq, h.2.withOptionsAll_eq]

end

mutual

/-- It stays readable with other options. -/
theorem Readable.withOptions (o' : Options) : ∀ {e : Expr},
    e.Readable r o → (e.withOptions o').Readable r o'
  | literal v, h => by
    rw [Expr.withOptions]
    exact readable_literal.2 (readable_literal.1 h)
  | constant name v, h => by
    rw [Expr.withOptions, Readable]
    rwa [Readable] at h
  | call options f args, h => by
    rw [Readable] at h
    obtain ⟨-, hname, hf, harity, hargs⟩ := h
    rw [Expr.withOptions, Readable, length_withOptionsAll]
    exact ⟨rfl, hname, hf, harity, hargs.withOptionsAll o'⟩
  | binary options op left right, h => by
    rw [Readable] at h
    rw [Expr.withOptions]
    exact readable_binary.2 ⟨h.2.1.withOptions o', h.2.2.withOptions o'⟩

theorem AllReadable.withOptionsAll (o' : Options) : ∀ {es : List Expr},
    AllReadable r o es → AllReadable r o' (withOptionsAll o' es)
  | [], _ => by
    rw [Expr.withOptionsAll]
    trivial
  | e :: rest, h => by
    rw [AllReadable] at h
    rw [Expr.withOptionsAll]
    exact ⟨h.1.withOptions o', h.2.withOptionsAll o'⟩

end

end Expr

namespace Grammar

/-! ## Grouping -/

section Closed

variable {o : Options} {P : Expr → Prop} (hbinary : ∀ op a b, P a → P b → P (.binary o op a b))

include hbinary

theorem powers_closed {e : Expr} {rest : List (Operator × Expr)} (he : P e)
    (hrest : ∀ p ∈ rest, P p.2) :
    P (powers o e rest).1 ∧ ∀ p ∈ (powers o e rest).2, P p.2 := by
  induction rest generalizing e with
  | nil => exact ⟨he, hrest⟩
  | cons p rest ih =>
    obtain ⟨op, x⟩ := p
    obtain ⟨hx, hrest⟩ := List.forall_mem_cons.1 hrest
    obtain ⟨hfirst, hothers⟩ := ih hx hrest
    by_cases hop : op = .pow
    · subst hop
      exact ⟨hbinary _ _ _ he hfirst, hothers⟩
    · rw [powers_cons_of_ne hop]
      exact ⟨he, List.forall_mem_cons.2 ⟨hfirst, hothers⟩⟩

theorem products_closed {e : Expr} {rest : List (Operator × Expr)} (he : P e)
    (hrest : ∀ p ∈ rest, P p.2) :
    P (products o e rest).1 ∧ ∀ p ∈ (products o e rest).2, P p.2 := by
  induction rest generalizing e with
  | nil => exact ⟨he, hrest⟩
  | cons p rest ih =>
    obtain ⟨op, x⟩ := p
    obtain ⟨hx, hrest⟩ := List.forall_mem_cons.1 hrest
    by_cases hop : op = .mul ∨ op = .div
    · rw [products_cons hop]
      exact ih (hbinary _ _ _ he hx) hrest
    · rw [products_cons_of_not hop]
      obtain ⟨hfirst, hothers⟩ := ih hx hrest
      exact ⟨he, List.forall_mem_cons.2 ⟨hfirst, hothers⟩⟩

theorem sums_closed {e : Expr} {rest : List (Operator × Expr)} (he : P e)
    (hrest : ∀ p ∈ rest, P p.2) : P (sums o e rest) := by
  induction rest generalizing e with
  | nil => exact he
  | cons p rest ih =>
    obtain ⟨hx, hrest⟩ := List.forall_mem_cons.1 hrest
    exact ih (hbinary _ _ _ he hx) hrest

/-- What operations keep, the tree of a line has if its operands have it. -/
theorem group_closed {e : Expr} {rest : List (Operator × Expr)} (he : P e)
    (hrest : ∀ p ∈ rest, P p.2) : P (group o e rest) := by
  obtain ⟨he, hrest⟩ := powers_closed hbinary he hrest
  obtain ⟨he, hrest⟩ := products_closed hbinary he hrest
  exact sums_closed hbinary he hrest

end Closed

/-! ## What is read is readable -/

section Readable

variable {r : Registry} {o : Options} {Inside : List Char → Expr → Prop} {text : List Char}
  {e : Expr}

theorem Items.readable {es : List Expr} (h : Items Inside text es)
    (hinside : ∀ t e, Inside t e → e.Readable r o) : Expr.AllReadable r o es := by
  induction h with
  | blank hb => trivial
  | last h => exact ⟨hinside _ _ h, trivial⟩
  | skip hb _ ih => exact ih
  | cons h _ ih => exact ⟨hinside _ _ h, ih⟩

theorem Primary.readable (h : Primary r o Inside text e)
    (hinside : ∀ t e, Inside t e → e.Readable r o) : e.Readable r o := by
  cases h with
  | number hsign h => exact Expr.readable_literal.2 (Value.isLiteral_of_readLiteral h)
  | constant hname h =>
    have hfound := (Registry.of_constant?_eq_some h).2
    rw [Expr.Readable, hfound, String.toList_ofList]
    refine ⟨hname, h.trans ?_⟩
    rw [← hfound]
  | group h => exact hinside _ _ h
  | call hname h hb hargs harity =>
    rw [Expr.Readable, (Registry.of_function?_eq_some h).2, String.toList_ofList]
    exact ⟨rfl, hname, h, harity, hargs.readable hinside⟩

theorem Signed.readable (h : Signed r o Inside text e)
    (hinside : ∀ t e, Inside t e → e.Readable r o) : e.Readable r o := by
  cases h with
  | plain h => exact h.readable hinside
  | plus hb h => exact h.readable hinside
  | minus hb h => exact (h.readable hinside).negate

theorem Chain.readable {xs : List (Operator × Expr)} (h : Chain r o Inside text xs)
    (hinside : ∀ t e, Inside t e → e.Readable r o) : ∀ p ∈ xs, p.2.Readable r o := by
  induction h with
  | nil => simp
  | cons hb hb' h _ ih => exact List.forall_mem_cons.2 ⟨h.readable hinside, ih⟩

/-- Whatever a line reads as is made of the names of the registry. -/
theorem Level.readable {k : Nat} (h : Level r o k text e) : e.Readable r o := by
  induction k generalizing text e with
  | zero => exact h.elim
  | succ k ih =>
    obtain ⟨hb, hfirst, hrest, hb'⟩ := h
    have hinside (t : List Char) (e : Expr) (h : Level r o k t e) : e.Readable r o := ih h
    exact group_closed (fun _ _ _ ha hb => Expr.readable_binary.2 ⟨ha, hb⟩)
      (hfirst.readable hinside) (hrest.readable hinside)

/-- The grammar is unambiguous: a text has at most one tree, with whatever levels it is
derived. -/
theorem Level.unique {k k' : Nat} {e' : Expr} (h : Level r o k text e)
    (h' : Level r o k' text e') : e = e' := by
  -- a parser with room for both trees reads them both, and it is a function
  let p : Parser := ⟨r, { limits := { height := max e.height e'.height } }⟩
  have he : p.parseLevel (text.length + 1) text = .ok (e.withOptions p.options) :=
    parseLevel_of_level (h.withOptions.of_length_lt (Nat.lt_succ_self _)) (by
      rw [Expr.height_withOptions]
      exact Nat.le_max_left _ _)
  have he' : p.parseLevel (text.length + 1) text = .ok (e'.withOptions p.options) :=
    parseLevel_of_level (h'.withOptions.of_length_lt (Nat.lt_succ_self _)) (by
      rw [Expr.height_withOptions]
      exact Nat.le_max_right _ _)
  rw [he] at he'
  have hsame := congrArg (Expr.withOptions o) (Except.ok.inj he')
  rwa [Expr.withOptions_withOptions, Expr.withOptions_withOptions, h.readable.withOptions_eq,
    h'.readable.withOptions_eq] at hsame

end Readable

/-! ## The text of a tree is an operand -/

section Printing

variable {r : Registry} {o : Options}

/-- Operands with a comma and a blank between any two are the arguments of a call. -/
theorem items_joinTexts {Inside : List Char → Expr → Prop} {es : List Expr}
    (h : ∀ e ∈ es, Signed r o Inside e.chars e) {b : List Char} (hb : Blank b) :
    Items (Line r o Inside) (b ++ joinTexts [',', ' '] (Expr.charsAll es)) es := by
  have hline {e : Expr} {b : List Char} (hb : Blank b) (h : Signed r o Inside e.chars e) :
      Line r o Inside (b ++ e.chars) e := by
    refine (Line.intro hb h .nil blank_nil).cast ?_
    simp
  induction es generalizing b with
  | nil =>
    rw [Expr.charsAll, joinTexts, List.append_nil]
    exact .blank hb
  | cons e es ih =>
    obtain ⟨he, hes⟩ := List.forall_mem_cons.1 h
    cases es with
    | nil =>
      rw [Expr.charsAll, Expr.charsAll, joinTexts]
      exact .last (hline hb he)
    | cons e' es =>
      have hitems := Items.cons (hline hb he) (ih hes blank_space)
      rw [Expr.charsAll, Expr.charsAll, joinTexts, ← Expr.charsAll]
      · simpa using hitems
      · simp

mutual

/-- The text of a readable tree is one operand, with fewer levels inside than the tree is
tall. -/
theorem signed_chars : ∀ (e : Expr), e.Readable r o → ∀ {k : Nat}, e.height ≤ k + 1 →
    Signed r o (Level r o k) e.chars e
  | .literal v, h, k, _ => by
    rw [Expr.readable_literal] at h
    rw [Expr.chars]
    exact h.signed_chars
  | .constant name v, h, k, _ => by
    rw [Expr.Readable] at h
    rw [Expr.chars]
    have hconstant : r.constant? (String.ofList name.toList) = some ⟨name, v⟩ := by
      rw [String.ofList_toList]
      exact h.2
    exact .plain (.constant h.1 hconstant)
  | .call options f args, h, k, hk => by
    rw [Expr.Readable] at h
    obtain ⟨ho, hname, hf, harity, hargs⟩ := h
    have hfunction : r.function? (String.ofList f.name.toList) = some f := by
      rw [String.ofList_toList]
      exact hf
    have hitems : Items (Level r o k) (joinTexts [',', ' '] (Expr.charsAll args)) args := by
      cases args with
      | nil => exact .blank blank_nil
      | cons e rest =>
        have hpos : 0 < e.height := e.height_pos
        rw [Expr.height, Expr.heightAll] at hk
        obtain ⟨k, rfl⟩ : ∃ l, k = l + 1 := ⟨k - 1, by omega⟩
        refine items_joinTexts (b := []) (signed_charsAll (e :: rest) hargs ?_) blank_nil
        rw [Expr.heightAll]
        omega
    rw [Expr.chars, ho]
    refine .plain ?_
    simpa using Primary.call (b := []) hname hfunction blank_nil hitems harity
  | .binary options op left right, h, k, hk => by
    rw [Expr.Readable] at h
    obtain ⟨ho, hleft, hright⟩ := h
    have hpos : 0 < left.height := left.height_pos
    rw [Expr.height] at hk
    obtain ⟨k, rfl⟩ : ∃ l, k = l + 1 := ⟨k - 1, by omega⟩
    have hchain : Chain r o (Level r o k)
        ([' '] ++ op.symbol :: ([' '] ++ (right.chars ++ []))) [(op, right)] :=
      .cons blank_space blank_space (signed_chars right hright (by omega)) .nil
    have hline : Level r o (k + 1) (left.chars ++ [' ', op.symbol, ' '] ++ right.chars)
        (.binary o op left right) := by
      have hgroup : group o left [(op, right)] = .binary o op left right := by
        cases op <;> rfl
      rw [← hgroup]
      refine (Line.intro blank_nil (signed_chars left hleft (by omega)) hchain blank_nil).cast ?_
      simp
    rw [Expr.chars, ho]
    refine .plain ?_
    simpa using Primary.group hline

theorem signed_charsAll : ∀ (es : List Expr), Expr.AllReadable r o es → ∀ {k : Nat},
    Expr.heightAll es ≤ k + 1 → ∀ e ∈ es, Signed r o (Level r o k) e.chars e
  | [], _, _, _ => by simp
  | e :: rest, h, k, hk => by
    rw [Expr.AllReadable] at h
    rw [Expr.heightAll] at hk
    exact List.forall_mem_cons.2
      ⟨signed_chars e h.1 (by omega), signed_charsAll rest h.2 (by omega)⟩

end

end Printing

end Grammar

namespace Parser

theorem readable_of_parse {p : Parser} (hnames : p.registry.NamesValid) {entry : String}
    {e : Expr} (h : p.parse entry = .ok e) : e.Readable p.registry p.options :=
  (level_of_parse hnames h).readable

/-- A parser with room for a tree over its names reads the tree from its text. -/
theorem parse_of_readable {p : Parser} {e : Expr} (h : e.Readable p.registry p.options)
    (hlength : e.text.length ≤ p.options.limits.length)
    (hdepth : e.height ≤ p.options.limits.depth) (hheight : e.height ≤ p.options.limits.height) :
    p.parse e.text = .ok e := by
  have hlevel : Grammar.Level p.registry p.options (p.options.limits.depth + 1) e.chars e :=
    Value.line_of_signed (Grammar.signed_chars e h (by omega))
  rw [Expr.text, String.length_ofList] at hlength
  unfold parse
  simp only [Expr.text, String.toList_ofList]
  rw [if_neg (Nat.not_lt.2 hlength)]
  exact Grammar.parseLevel_of_level hlevel hheight

/-- **Parsing undoes printing.**  The text of a tree that some parser has read is read as the
same tree by every parser with the same names whose limits have room for it: with the options of
this parser in it, and so as the very tree by the parser that has read it. -/
theorem parse_text {p p' : Parser} (hnames : p.registry.NamesValid)
    (hregistry : p'.registry = p.registry) {entry : String} {e : Expr}
    (h : p.parse entry = .ok e) (hlength : e.text.length ≤ p'.options.limits.length)
    (hdepth : e.height ≤ p'.options.limits.depth)
    (hheight : e.height ≤ p'.options.limits.height) :
    p'.parse e.text = .ok (e.withOptions p'.options) ∧ e.withOptions p.options = e := by
  have hreadable := readable_of_parse hnames h
  refine ⟨?_, hreadable.withOptions_eq⟩
  have hother : (e.withOptions p'.options).Readable p'.registry p'.options := by
    rw [hregistry]
    exact hreadable.withOptions p'.options
  have htext : (e.withOptions p'.options).text = e.text := by
    rw [Expr.text, Expr.chars_withOptions, Expr.text]
  have hread := parse_of_readable hother (by rwa [htext]) (by rwa [Expr.height_withOptions])
    (by rwa [Expr.height_withOptions])
  rwa [htext] at hread

end Parser

/-! ## A call under a sign -/

namespace Grammar

/-- A parser that knows the constant `e` and a function `f` of two arguments. -/
def callingParser : Parser :=
  ⟨⟨[⟨"e", 3⟩], [.binary "f" fun _ x _ => pure (.ok x)]⟩, {}⟩

/-- The tree of `-f(-2, e)^2`, in which the sign of the call has become a difference. -/
def callingTree : Expr :=
  .binary {} .pow
    (.binary {} .sub (.literal 0)
      (.call {} (.binary "f" fun _ x _ => pure (.ok x))
        [.literal (.integer (-2)), .constant "e" 3]))
    (.literal (.integer 2))

theorem level_callingTree :
    Level callingParser.registry {} 2 "-f(-2, e)^2".toList callingTree := by
  have htwo {Inside : List Char → Expr → Prop} :
      Signed callingParser.registry {} Inside ['2'] (.literal (.integer 2)) :=
    .plain (.number rfl (by decide +kernel))
  have hconstant {Inside : List Char → Expr → Prop} :
      Signed callingParser.registry {} Inside ['e'] (.constant "e" 3) :=
    .plain (.constant (c := ⟨"e", 3⟩) (by decide) (by decide +kernel))
  have hargs : Items (Level callingParser.registry {} 1) "-2, e".toList
      [.literal (.integer (-2)), .constant "e" 3] := by
    have htext : "-2, e".toList = [] ++ joinTexts [',', ' ']
        (Expr.charsAll [.literal (.integer (-2)), .constant "e" 3]) := by decide +kernel
    rw [htext]
    refine items_joinTexts ?_ blank_nil
    exact List.forall_mem_cons.2 ⟨(Value.isLiteral_integer (-2)).signed_chars,
      List.forall_mem_cons.2 ⟨hconstant, by simp⟩⟩
  have hname : Registry.isName ['f'] = true := by decide
  have hfunction : callingParser.registry.function? "f" =
      some (.binary "f" fun _ x _ => pure (.ok x)) :=
    Registry.function?_of_mem (r := callingParser.registry) (List.pairwise_singleton _ _)
      List.mem_cons_self
  have hcall := Primary.call (r := callingParser.registry) (o := {}) (b := []) hname hfunction
    blank_nil hargs (by decide)
  have hpow : Chain callingParser.registry {} (Level callingParser.registry {} 1)
      ([] ++ Operator.pow.symbol :: ([] ++ (['2'] ++ []))) [(.pow, .literal (.integer 2))] :=
    .cons blank_nil blank_nil htwo .nil
  exact .intro blank_nil (.minus blank_nil hcall) hpow blank_nil

end Grammar

theorem Parser.parse_text_callingTree :
    Grammar.callingParser.registry.NamesValid ∧
      Grammar.callingParser.parse "-f(-2, e)^2" = .ok Grammar.callingTree ∧
      Grammar.callingTree.text = "((0 - f(-2, e)) ^ 2)" ∧
      Grammar.callingParser.parse "((0 - f(-2, e)) ^ 2)" = .ok Grammar.callingTree := by
  have hnames : Grammar.callingParser.registry.NamesValid := ⟨by decide, by decide⟩
  have hparse : Grammar.callingParser.parse "-f(-2, e)^2" = .ok Grammar.callingTree :=
    Grammar.parseLevel_of_level
      (Grammar.level_callingTree.of_length_lt (by decide)) (by decide)
  have htext : Grammar.callingTree.text = "((0 - f(-2, e)) ^ 2)" := by decide +kernel
  obtain ⟨hread, hself⟩ :=
    Parser.parse_text hnames rfl hparse (by rw [htext]; decide) (by decide) (by decide)
  rw [htext, hself] at hread
  exact ⟨hnames, hparse, htext, hread⟩

end Reckoner
