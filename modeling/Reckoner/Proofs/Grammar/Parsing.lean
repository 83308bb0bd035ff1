import Mathlib
import Reckoner.Parser.Builder
import Reckoner.Proofs.Grammar.Scanning
import Reckoner.Proofs.Registry.Lookup

/-!
# The parser accepts its grammar

`parse_eq_ok_iff` joins the parts: a parser whose limits leave room for an entry reads it
exactly if the grammar derives it, and gives the tree that the derivation gives.  One
operand goes either way with `exists_primary_of_reads` and `readsPrimaries`, one level
with `level_of_parseLevel` and `parseLevel_of_level`; the second needs no room for the text,
only for the tree.

The names of a registry have to be names, which every registry that can be made
guarantees: `namesValid_ofTables`, `namesValid_standard`.
-/

namespace Reckoner

/-- Everything that a registry holds goes by a name. -/
structure Registry.NamesValid (r : Registry) : Prop where
  constants : ∀ c ∈ r.constants, Registry.isName c.name.toList = true
  functions : ∀ f ∈ r.functions, Registry.isName f.name.toList = true

theorem Registry.NamesValid.of_sorted {constants : List Constant} {functions : List Function}
    (hc : ∀ c ∈ constants, Registry.isName c.name.toList = true)
    (hf : ∀ f ∈ functions, Registry.isName f.name.toList = true) :
    Registry.NamesValid ⟨Registry.sortByName (·.name) constants,
      Registry.sortByName (·.name) functions⟩ :=
  ⟨fun c h => hc c (List.mem_mergeSort.1 h), fun f h => hf f (List.mem_mergeSort.1 h)⟩

/-- A registry is only made of names. -/
theorem Registry.namesValid_ofTables {constants : List Constant} {functions : List Function}
    {r : Registry} (h : Registry.ofTables constants functions = .ok r) : r.NamesValid := by
  obtain ⟨hnames, -, -, rfl⟩ := Registry.ofTables_eq_ok_iff.1 h
  rw [List.forall_mem_append, List.forall_mem_map, List.forall_mem_map] at hnames
  exact .of_sorted hnames.1 hnames.2

/-- So is the registry of a parser that is built. -/
theorem Builder.namesValid_build {b : Builder} {p : Parser} (h : b.build = .ok p) :
    p.registry.NamesValid := by
  obtain ⟨r, hr, h⟩ := ok_of_bind_eq_ok h
  cases h
  exact Registry.namesValid_ofTables hr

theorem Registry.namesValid_standard (options : Options) :
    (Registry.standard options).NamesValid := by
  refine .of_sorted ?_ ?_
  · simp only [Standard.constants, List.forall_mem_cons, List.not_mem_nil, false_imp_iff,
      implies_true, and_true]
    decide
  · simp only [Standard.functions, List.forall_mem_cons, List.not_mem_nil, false_imp_iff,
      implies_true, and_true, Function.unary, Function.binary, Function.nonempty]
    decide

namespace Grammar

/-! ## Signs -/

theorem height_le_withSign (o : Options) (negative : Bool) (e : Expr) :
    e.height ≤ (e.withSign o negative).height := by
  cases negative with
  | false => exact le_rfl
  | true =>
    cases e <;> simp [Expr.withSign, Expr.negate, Expr.height]

theorem withSign_literal (o : Options) (negative : Bool) (v : Value) :
    (Expr.literal v).withSign o negative = .literal (if negative then -v else v) := by
  cases negative <;> rfl

theorem readLiteral_signChars {text : List Char} (hsign : Value.cutSign text = (false, text))
    {negative : Bool} {w : Value} :
    Value.readLiteral (signChars negative ++ text) = .ok w ↔
      ∃ v, Value.readLiteral text = .ok v ∧ w = if negative then -v else v := by
  cases negative with
  | false => simp [signChars]
  | true =>
    show Value.readLiteral ('-' :: text) = .ok w ↔ _
    simp only [Value.readLiteral_eq_ok_iff, Value.literal?_minus hsign, if_true]
    cases Value.literal? text with
    | error cause => simp [Except.map]
    | ok v => simp [Except.map, eq_comm]

/-! ## Atoms -/

section Parser

variable {p : Parser} {inside : List Char → Except Fault Expr}
  {Inside : List Char → Expr → Prop} {negative : Bool}

/-- The sign of an atom is told from the atom. -/
theorem parseAtom_signChars {c : Char} {text : List Char} (hc : Operator.ofSymbol? c = none) :
    p.parseAtom (signChars negative ++ c :: text) =
      if Scanner.startsNumber c then
        Expr.literal <$> Value.readLiteral (signChars negative ++ c :: text)
      else if Registry.isName (c :: text) then
        match p.registry.constant? (String.ofList (c :: text)) with
        | some d => .ok ((Expr.constant d.name d.value).withSign p.options negative)
        | none => .error (.ofFragment .unknownConstant (c :: text))
      else .error (.ofFragment .unknownToken (signChars negative ++ c :: text)) := by
  cases negative with
  | true => rfl
  | false =>
    have hminus : c ≠ '-' := by
      rintro rfl
      cases hc
    unfold Parser.parseAtom
    split
    rename_i negative body hbody
    split at hbody
    · rename_i heq
      exact absurd (List.cons.inj heq).1 hminus
    · cases hbody
      rfl

/-! ## One operand -/

theorem name_of_function? (hnames : p.registry.NamesValid) {name : List Char} {f : Function}
    (h : p.registry.function? (String.ofList name) = some f) :
    Registry.isName name = true := by
  obtain ⟨hmem, hf⟩ := Registry.of_function?_eq_some h
  have hname := hnames.functions f hmem
  rwa [hf, String.toList_ofList] at hname

theorem exists_primary_of_atom {c : Char} {text : List Char} {x : Expr}
    (hc : Operator.ofSymbol? c = none)
    (h : p.parseAtom (signChars negative ++ c :: text) = .ok x) :
    ∃ e, Primary p.registry p.options Inside (c :: text) e ∧ x = e.withSign p.options negative := by
  rw [parseAtom_signChars hc] at h
  split at h
  · rename_i hnumber
    obtain ⟨w, hw, rfl⟩ := ok_of_map_eq_ok h
    have hsign : Value.cutSign (c :: text) = (false, c :: text) :=
      Value.cutSign_cons (startsNumber_iff.1 hnumber)
    obtain ⟨v, hv, rfl⟩ := (readLiteral_signChars hsign).1 hw
    exact ⟨.literal v, .number hsign hv, (withSign_literal _ negative v).symm⟩
  · split at h
    · rename_i hname
      split at h
      · rename_i d hd
        cases h
        exact ⟨_, .constant hname hd, rfl⟩
      · cases h
    · cases h

theorem exists_primary_of_call (hnames : p.registry.NamesValid)
    (hinside : ∀ t e, inside (Text.trim t) = .ok e → Inside t e) {name b text : List Char}
    {x : Expr} (hb : Blank b)
    (h : p.parseCall inside negative name (Arguments.split text) = .ok x) :
    ∃ e, Primary p.registry p.options Inside (name ++ (b ++ ('(' :: text ++ [')']))) e ∧
      x = e.withSign p.options negative := by
  unfold Parser.parseCall at h
  split at h
  · cases h
  · rename_i f hf
    split at h
    · cases h
    · rename_i harity
      obtain ⟨args, hargs, h⟩ := ok_of_bind_eq_ok h
      simp only [] at h
      split at h
      · cases h
      · cases h
        refine ⟨_, .call (name_of_function? hnames hf) hf hb
          ((items_of_mapM hargs).mono fun t e _ _ => hinside t e) ?_, rfl⟩
        rw [length_of_mapM hargs]
        simpa using harity

/-- An operand that is read is the primary that is written. -/
theorem exists_primary_of_reads (hnames : p.registry.NamesValid)
    (hinside : ∀ t e, inside t = .ok e → Inside t e)
    (htrim : ∀ t e, Inside (Text.trim t) e → Inside t e) {text : List Char} {o : Operand}
    {x : Expr} (hreads : Reads negative text o) (h : p.parseOperand inside o = .ok x) :
    ∃ e, Primary p.registry p.options Inside text e ∧ x = e.withSign p.options negative := by
  cases hreads with
  | atom hc => exact exists_primary_of_atom hc h
  | group =>
    obtain ⟨e, he, rfl⟩ := ok_of_map_eq_ok h
    exact ⟨e, .group (hinside _ _ he), rfl⟩
  | call hb =>
    exact exists_primary_of_call hnames (fun t e he => htrim t e (hinside _ _ he)) hb h

/-- A call whose arguments are read is read unless it is too tall. -/
theorem parseCall_of_items
    (hinside : ∀ t e, Inside t e → e.height ≤ p.options.limits.height →
      inside (Text.trim t) = .ok e)
    (hsolid : ∀ t e, Inside t e → Text.trim t ≠ [])
    (hbalanced : ∀ t e, Inside t e → Balanced false t) {name text : List Char} {f : Function}
    {args : List Expr} (hf : p.registry.function? (String.ofList name) = some f)
    (hargs : Items Inside text args) (harity : f.arity.accepts args.length = true)
    (hheight : ((Expr.call p.options f args).withSign p.options negative).height ≤
      p.options.limits.height) :
    p.parseCall inside negative name (Arguments.split text) =
      .ok ((Expr.call p.options f args).withSign p.options negative) := by
  have hall : Expr.heightAll args ≤ p.options.limits.height := by
    have := (height_le_withSign p.options negative (Expr.call p.options f args)).trans hheight
    rw [Expr.height] at this
    omega
  have hread := mapM_of_items (hargs.mono fun t e he _ ht =>
    ⟨hbalanced t e ht, hsolid t e ht, hinside t e ht ((Expr.height_le_heightAll he).trans hall)⟩)
  unfold Parser.parseCall
  rw [hf]
  simp only []
  rw [← length_of_mapM hread, harity, hread]
  exact if_neg (Nat.not_lt.2 hheight)

/-- A primary that is written is read as an operand that stands for it. -/
theorem readsPrimaries
    (hinside : ∀ t e, Inside t e → e.height ≤ p.options.limits.height → inside t = .ok e)
    (htrim : ∀ t e, Inside t e → Solid (Text.trim t) ∧ Inside (Text.trim t) e)
    (hbalanced : ∀ t e, Inside t e → Balanced false t) :
    ReadsPrimaries p.registry p.options Inside (p.parseOperand inside) p.options.limits.height := by
  intro negative text e h hheight
  have hlow := (height_le_withSign p.options negative e).trans hheight
  cases h with
  | @number _ v hsign h =>
    obtain ⟨q, k, rfl, hq⟩ := exists_parts hsign h
    obtain ⟨c, rest, hchars, hstart⟩ := hq.exists_cons
    have hnumber := startsNumber_iff.2 hstart
    have hplain := not_isDelimiter_of_startsNumber hnumber
    rw [hchars] at hsign h ⊢
    refine ⟨c, rest, _, rfl, readsAs_atom hplain ?_, ?_⟩
    · intro after hafter
      rw [hnumber]
      exact atomLength_literal hq hchars hafter.stops
    · show p.parseAtom _ = _
      rw [parseAtom_signChars (not_isDelimiter_iff.1 hplain).2.1, if_pos hnumber,
        (readLiteral_signChars hsign).2 ⟨v, h, rfl⟩, withSign_literal]
      rfl
  | constant hname h =>
    obtain ⟨c, rest, rfl, hstart, hplain⟩ := exists_of_isName hname
    refine ⟨c, rest, _, rfl, readsAs_name hname, ?_⟩
    show p.parseAtom _ = _
    rw [parseAtom_signChars (not_isDelimiter_iff.1 (hplain c (by simp))).2.1,
      if_neg (by simp [not_startsNumber_of_isNameStart hstart]), if_pos hname, h]
  | @group text _ h =>
    refine ⟨'(', text ++ [')'], _, rfl, readsAs_group (hbalanced _ _ h), ?_⟩
    show Expr.withSign p.options negative <$> inside text = _
    rw [hinside _ _ h hlow]
    rfl
  | @call name b text f args hname h hb hargs harity =>
    obtain ⟨c, rest, rfl, hstart, hplain⟩ := exists_of_isName hname
    refine ⟨c, _, _, rfl, readsAs_call (not_startsNumber_of_isNameStart hstart) hplain hb
      (hargs.balanced hbalanced), ?_⟩
    exact parseCall_of_items (fun t e ht => hinside _ _ (htrim t e ht).2)
      (fun t e ht hnil => by
        obtain ⟨c, rest, hfirst, -⟩ := (htrim t e ht).1.first
        rw [hnil] at hfirst
        cases hfirst)
      hbalanced h hargs harity hheight

end Parser

/-! ## Levels -/

theorem Level.trim {r : Registry} {o : Options} {k : Nat} {text : List Char} {e : Expr}
    (h : Level r o k text e) : Solid (Text.trim text) ∧ Level r o k (Text.trim text) e := by
  cases k with
  | zero => exact h.elim
  | succ k => exact Line.trim h

theorem Level.of_trim {r : Registry} {o : Options} {k : Nat} {text : List Char} {e : Expr}
    (h : Level r o k (Text.trim text) e) : Level r o k text e := by
  cases k with
  | zero => exact h.elim
  | succ k => exact Line.of_trim h

/-- What a parser reads with a number of levels is a line with these levels. -/
theorem level_of_parseLevel {p : Parser} (hnames : p.registry.NamesValid) {k : Nat}
    {text : List Char} {e : Expr} (h : p.parseLevel k text = .ok e) :
    Level p.registry p.options k text e := by
  induction k generalizing text e with
  | zero => cases h
  | succ k ih =>
    rw [Parser.parseLevel] at h
    obtain ⟨tokens, htokens, h⟩ := ok_of_bind_eq_ok h
    obtain ⟨o, rest, x, xs, rfl, hx, hxs, rfl⟩ := exists_of_build h
    have hinside (t : List Char) (e : Expr) (ht : p.parseLevel k t = .ok e) :
        Level p.registry p.options k t e := ih ht
    exact line_of_scan (fun _ _ _ _ hreads hresolve =>
      exists_primary_of_reads hnames hinside (fun t e => Level.of_trim) hreads hresolve)
      htokens hx hxs

/-- A line is read with its levels unless its tree is too tall. -/
theorem parseLevel_of_level {p : Parser} {k : Nat} {text : List Char} {e : Expr}
    (h : Level p.registry p.options k text e) (hheight : e.height ≤ p.options.limits.height) :
    p.parseLevel k text = .ok e := by
  induction k generalizing text e with
  | zero => exact h.elim
  | succ k ih =>
    obtain ⟨o, tokens, x, xs, hscan, hx, hxs, rfl⟩ := exists_scan_of_line
      (readsPrimaries (fun t e ht => ih ht) (fun t e => Level.trim) fun t e => Level.balanced)
      h hheight
    rw [Parser.parseLevel, hscan]
    exact build_of_resolved hx hxs hheight

end Grammar

/-- The tree of an entry is derived by the grammar. -/
theorem Parser.level_of_parse {p : Parser} (hnames : p.registry.NamesValid) {entry : String}
    {e : Expr} (h : p.parse entry = .ok e) :
    Grammar.Level p.registry p.options (p.options.limits.depth + 1) entry.toList e := by
  unfold parse at h
  simp only [] at h
  split at h
  · cases h
  · exact Grammar.level_of_parseLevel hnames h

/-- A parser with room for an entry reads it exactly if the grammar derives it, and its tree
is the one of the derivation. -/
theorem Parser.parse_eq_ok_iff {p : Parser} {entry : String} {e : Expr}
    (hnames : p.registry.NamesValid)
    (hlength : entry.toList.length ≤ p.options.limits.length)
    (hdepth : entry.toList.length ≤ p.options.limits.depth)
    (hheight : entry.toList.length < p.options.limits.height) :
    p.parse entry = .ok e ↔ Grammar.Derives p.registry p.options entry.toList e := by
  unfold Parser.parse
  simp only []
  rw [if_neg (Nat.not_lt.2 hlength)]
  constructor
  · exact fun h => ⟨_, Grammar.level_of_parseLevel hnames h⟩
  · rintro ⟨k, h⟩
    exact Grammar.parseLevel_of_level (h.of_length_lt (Nat.lt_succ_of_le hdepth))
      (h.height_le.trans hheight.le)

/-! ## A parser with one name -/

namespace Grammar

/-- A parser that knows the constant `e`. -/
def sampleParser : Parser := ⟨⟨[⟨"e", 3⟩], []⟩, {}⟩

/-- The sign is taken before the power. -/
theorem line_sample (Inside : List Char → Expr → Prop) :
    Line sampleParser.registry sampleParser.options Inside "-2^e".toList
      (.binary {} .pow (.literal (.integer (-2))) (.constant "e" 3)) := by
  have htwo {o : Options} :
      Primary sampleParser.registry o Inside ['2'] (.literal (.integer 2)) :=
    .number rfl (by decide +kernel)
  have hminus {o : Options} :
      Signed sampleParser.registry o Inside ['-', '2'] (.literal (.integer (-2))) :=
    .minus blank_nil htwo
  have hconstant :
      sampleParser.registry.constant? (String.ofList ['e']) = some ⟨"e", 3⟩ := by decide +kernel
  have he : Primary sampleParser.registry sampleParser.options Inside ['e'] (.constant "e" 3) :=
    Primary.constant (by decide) hconstant
  have hpow : Chain sampleParser.registry sampleParser.options Inside
      ([] ++ Operator.pow.symbol :: ([] ++ (['e'] ++ []))) [(.pow, .constant "e" 3)] :=
    .cons blank_nil blank_nil (.plain he) .nil
  exact .intro blank_nil hminus hpow blank_nil

end Grammar

theorem Parser.parse_eq_ok_iff_sample :
    Grammar.sampleParser.registry.NamesValid ∧ Grammar.sampleParser.parse "-2^e" =
      .ok (.binary {} .pow (.literal (.integer (-2))) (.constant "e" 3)) := by
  have hnames : Grammar.sampleParser.registry.NamesValid := ⟨by decide, by decide⟩
  exact ⟨hnames, (Parser.parse_eq_ok_iff hnames (by decide) (by decide) (by decide)).2
    ⟨1, Grammar.line_sample _⟩⟩

end Reckoner
