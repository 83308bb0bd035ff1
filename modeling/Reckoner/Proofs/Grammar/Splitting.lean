import Mathlib
import Reckoner.Proofs.Grammar.Lexemes
import Reckoner.Token.Basic

/-!
# Splitting undoes joining

The depth of a text is the number of parentheses that it opens less the number that it closes; it
may be negative.  The inside of a call is cut at its outer commas, those with depth zero before
them, whether its parentheses are balanced or not.  What is proved here:

* `pieces_eq_iff`: cutting is the inverse of writing texts with a comma between any two.  The pieces
  of a text are the one list that gives the text back and is separable, that is, no piece has an
  outer comma and all but the last have depth zero.
* `split_joinTexts_comma`, `split_joinTexts_solid`: separable texts are split again, with commas or
  with a comma and a blank between any two.
* `Arguments.split_undoes_join`: arguments are found again whatever blanks and blank items are put
  around them; and what any text is split into is split into itself, because neither trimming nor
  dropping pieces changes a depth at which a cut is made (`separable_split`).
-/

namespace Reckoner
namespace Grammar

/-! ## Depth -/

/-- How many more parentheses a text opens than it closes. -/
def depth (text : List Char) : Int := text.count '(' - text.count ')'

@[simp]
theorem depth_nil : depth [] = 0 := rfl

@[simp]
theorem depth_append (s t : List Char) : depth (s ++ t) = depth s + depth t := by
  simp only [depth, List.count_append]
  omega

theorem depth_singleton (c : Char) :
    depth [c] = if c = '(' then 1 else if c = ')' then -1 else 0 := by
  by_cases hopen : c = '('
  · subst hopen
    rfl
  by_cases hclose : c = ')'
  · subst hclose
    rfl
  · simp [depth, hopen, hclose]

theorem depth_concat (text : List Char) (c : Char) : depth (text ++ [c]) =
    if c = '(' then depth text + 1 else if c = ')' then depth text - 1 else depth text := by
  rw [depth_append, depth_singleton]
  split_ifs <;> omega

theorem depth_of_blank {b : List Char} (hb : Blank b) : depth b = 0 := by
  have hcount (c : Char) (hc : Text.isBlank c = false) : b.count c = 0 := by
    rw [List.count_eq_zero]
    intro hmem
    simp [hb c hmem] at hc
  simp [depth, hcount '(' rfl, hcount ')' rfl]

theorem depth_trim (text : List Char) : depth (Text.trim text) = depth text := by
  obtain ⟨b, b', hb, hb', htext⟩ := exists_trim text
  have := congrArg depth htext
  simpa [depth_of_blank hb, depth_of_blank hb'] using this.symm

/-! ## Outer commas -/

/-- No comma of the text stands at depth zero. -/
def Uncut (text : List Char) : Prop := ∀ s t, text = s ++ ',' :: t → depth s ≠ 0

theorem uncut_of_not_mem {text : List Char} (h : ',' ∉ text) : Uncut text := by
  rintro s t rfl
  simp at h

theorem uncut_nil : Uncut [] := uncut_of_not_mem (by simp)

theorem uncut_of_blank {b : List Char} (hb : Blank b) : Uncut b := by
  refine uncut_of_not_mem fun hmem => ?_
  have := hb ',' hmem
  revert this
  decide

theorem Uncut.of_append_left {s t : List Char} (h : Uncut (s ++ t)) : Uncut s := by
  rintro u v rfl
  exact h u (v ++ t) (by simp)

/-- Behind a text of depth zero nothing has changed for the commas. -/
theorem uncut_append {s t : List Char} (hdepth : depth s = 0) :
    Uncut (s ++ t) ↔ Uncut s ∧ Uncut t := by
  constructor
  · intro h
    refine ⟨h.of_append_left, ?_⟩
    rintro u v rfl
    have := h (s ++ u) v (by simp)
    rwa [depth_append, hdepth, zero_add] at this
  · rintro ⟨hs, ht⟩ u v huv
    rcases List.append_eq_append_iff.1 huv with ⟨w, rfl, hw⟩ | ⟨w, rfl, hw⟩
    · rw [depth_append, hdepth, zero_add]
      exact ht w v hw
    · cases w with
      | nil =>
        rw [List.append_nil] at hdepth
        have := ht [] v (by simpa using hw.symm)
        exact absurd rfl this
      | cons c w =>
        obtain ⟨rfl, -⟩ := List.cons.inj hw
        exact hs u w rfl

theorem uncut_concat {text : List Char} {c : Char} :
    Uncut (text ++ [c]) ↔ Uncut text ∧ ¬(c = ',' ∧ depth text = 0) := by
  constructor
  · intro h
    refine ⟨h.of_append_left, ?_⟩
    rintro ⟨rfl, hdepth⟩
    exact h text [] rfl hdepth
  · rintro ⟨htext, hc⟩ s t hst
    rcases List.eq_nil_or_concat t with rfl | ⟨t, d, rfl⟩
    · obtain ⟨rfl, hcomma⟩ := List.append_inj' hst rfl
      exact fun hdepth => hc ⟨(List.cons.inj hcomma).1, hdepth⟩
    · rw [List.concat_eq_append, ← List.cons_append, ← List.append_assoc] at hst
      exact htext s t (List.append_inj' hst rfl).1

theorem Uncut.trim {text : List Char} (h : Uncut text) : Uncut (Text.trim text) := by
  obtain ⟨b, b', hb, -, htext⟩ := exists_trim text
  rw [htext, uncut_append (depth_of_blank hb)] at h
  exact h.2.of_append_left

/-! ## Pieces -/

/-- The reader passes a character that is no outer comma. -/
theorem pieces_pass {text : List Char} {c : Char} (h : ¬(c = ',' ∧ depth text = 0))
    (rest : List Char) : Arguments.pieces (depth text) text.reverse (c :: rest) =
      Arguments.pieces (depth (text ++ [c])) (text ++ [c]).reverse rest := by
  rw [Arguments.pieces, if_neg h, depth_concat, List.reverse_append]
  rfl

theorem pieces_cut {text : List Char} (h : depth text = 0) (rest : List Char) :
    Arguments.pieces (depth text) text.reverse (',' :: rest) =
      text :: Arguments.pieces 0 [] rest := by
  rw [h, Arguments.pieces, if_pos ⟨rfl, rfl⟩, List.reverse_reverse]

theorem pieces_append {text : List Char} (h : Uncut text) (rest : List Char) :
    Arguments.pieces 0 [] (text ++ rest) =
      Arguments.pieces (depth text) text.reverse rest := by
  -- from the end, because a character is passed at the depth of what stands before it
  induction text using List.reverseRecOn generalizing rest with
  | nil => rfl
  | append_singleton text c ih =>
    obtain ⟨htext, hc⟩ := uncut_concat.1 h
    rw [List.append_assoc, ih htext, List.singleton_append, pieces_pass hc]

theorem pieces_comma {text : List Char} (h : Uncut text) (hdepth : depth text = 0)
    (rest : List Char) :
    Arguments.pieces 0 [] (text ++ ',' :: rest) = text :: Arguments.pieces 0 [] rest := by
  rw [pieces_append h, pieces_cut hdepth]

theorem pieces_last {text : List Char} (h : Uncut text) :
    Arguments.pieces 0 [] text = [text] := by
  have := pieces_append h []
  rwa [List.append_nil, Arguments.pieces, List.reverse_reverse] at this

/-- Texts that stay apart when a comma is put between any two: none has an outer comma, and one that
is not the last has depth zero, so that the comma behind it is an outer one. -/
structure Separable (items : List (List Char)) : Prop where
  uncut : ∀ item ∈ items, Uncut item
  depth_eq : items.Pairwise fun item _ => depth item = 0

theorem separable_singleton {text : List Char} : Separable [text] ↔ Uncut text := by
  constructor
  · intro h
    exact h.uncut text (by simp)
  · intro h
    exact ⟨by simpa using h, List.pairwise_singleton _ _⟩

theorem separable_cons {text : List Char} {items : List (List Char)} (hne : items ≠ []) :
    Separable (text :: items) ↔ Uncut text ∧ depth text = 0 ∧ Separable items := by
  obtain ⟨item, items, rfl⟩ := List.exists_cons_of_ne_nil hne
  constructor
  · rintro ⟨huncut, hdepth⟩
    obtain ⟨htext, hdepth⟩ := List.pairwise_cons.1 hdepth
    obtain ⟨hcut, huncut⟩ := List.forall_mem_cons.1 huncut
    exact ⟨hcut, htext item (by simp), huncut, hdepth⟩
  · rintro ⟨hcut, htext, huncut, hdepth⟩
    exact ⟨List.forall_mem_cons.2 ⟨hcut, huncut⟩,
      List.pairwise_cons.2 ⟨fun _ _ => htext, hdepth⟩⟩

theorem separable_of_forall {items : List (List Char)}
    (h : ∀ item ∈ items, Uncut item ∧ depth item = 0) : Separable items :=
  ⟨fun item hitem => (h item hitem).1,
    List.pairwise_of_forall_mem_list fun item hitem _ _ => (h item hitem).2⟩

theorem Separable.filter {items : List (List Char)} (h : Separable items)
    (p : List Char → Bool) : Separable (items.filter p) :=
  ⟨fun item hitem => h.uncut item (List.mem_of_mem_filter hitem), h.depth_eq.filter p⟩

theorem Separable.map {items : List (List Char)} (h : Separable items)
    {f : List Char → List Char} (huncut : ∀ item, Uncut item → Uncut (f item))
    (hdepth : ∀ item, depth (f item) = depth item) : Separable (items.map f) := by
  constructor
  · intro text htext
    obtain ⟨item, hitem, rfl⟩ := List.mem_map.1 htext
    exact huncut item (h.uncut item hitem)
  · rw [List.pairwise_map]
    exact h.depth_eq.imp fun {item _} hitem => (hdepth item).trans hitem

theorem joinTexts_cons (separator text : List Char) {texts : List (List Char)}
    (h : texts ≠ []) :
    joinTexts separator (text :: texts) = text ++ (separator ++ joinTexts separator texts) := by
  cases texts with
  | nil => exact absurd rfl h
  | cons text' texts => rw [joinTexts, List.append_assoc]; simp

/-- Separable texts are cut where they were joined. -/
theorem pieces_joinTexts {items : List (List Char)} (h : Separable items) (hne : items ≠ []) :
    Arguments.pieces 0 [] (joinTexts [','] items) = items := by
  induction items with
  | nil => exact absurd rfl hne
  | cons item items ih =>
    by_cases hrest : items = []
    · subst hrest
      exact pieces_last (separable_singleton.1 h)
    · obtain ⟨huncut, hdepth, hitems⟩ := (separable_cons hrest).1 h
      rw [joinTexts_cons _ _ hrest, List.singleton_append, pieces_comma huncut hdepth,
        ih hitems hrest]

/-- From any place on, the reader cuts what it has not cut yet into separable pieces. -/
theorem pieces_spec {text : List Char} (h : Uncut text) (rest : List Char) :
    Arguments.pieces (depth text) text.reverse rest ≠ [] ∧
      Separable (Arguments.pieces (depth text) text.reverse rest) ∧
      joinTexts [','] (Arguments.pieces (depth text) text.reverse rest) = text ++ rest := by
  -- `text` is what was passed since the last cut: it has no outer comma, and the reader's depth is
  -- its own, because every cut is made at depth zero
  induction rest generalizing text with
  | nil =>
    rw [Arguments.pieces, List.reverse_reverse, List.append_nil]
    exact ⟨by simp, separable_singleton.2 h, rfl⟩
  | cons c rest ih =>
    by_cases hcut : c = ',' ∧ depth text = 0
    · obtain ⟨rfl, hdepth⟩ := hcut
      rw [pieces_cut hdepth]
      obtain ⟨hne, hseparable, hjoin⟩ := ih uncut_nil
      rw [depth_nil, List.reverse_nil] at hne hseparable hjoin
      refine ⟨by simp, (separable_cons hne).2 ⟨h, hdepth, hseparable⟩, ?_⟩
      rw [joinTexts_cons _ _ hne, hjoin]
      rfl
    · have := ih (uncut_concat.2 ⟨h, hcut⟩)
      rwa [← pieces_pass hcut, List.append_assoc] at this

/-- The pieces of a text are the separable texts that give it when they are joined. -/
theorem pieces_eq_iff {text : List Char} {items : List (List Char)} :
    Arguments.pieces 0 [] text = items ↔
      items ≠ [] ∧ Separable items ∧ joinTexts [','] items = text := by
  constructor
  · rintro rfl
    exact pieces_spec uncut_nil text
  · rintro ⟨hne, h, rfl⟩
    exact pieces_joinTexts h hne

/-- Whether a text has an outer comma is seen by cutting it. -/
instance : DecidablePred Uncut := fun text =>
  decidable_of_iff (Arguments.pieces 0 [] text = [text])
    ⟨fun h => separable_singleton.1 (pieces_eq_iff.1 h).2.1, pieces_last⟩

/-! ## Splitting -/

/-- The argument that a piece gives: none if it is blank. -/
def item (piece : List Char) : List (List Char) :=
  if Text.trim piece = [] then [] else [Text.trim piece]

theorem item_of_blank {b : List Char} (hb : Blank b) : item b = [] :=
  if_pos (trim_eq_nil_iff.2 hb)

theorem item_append {b text b' : List Char} (hb : Blank b) (h : Solid text) (hb' : Blank b') :
    item (b ++ (text ++ b')) = [text] := by
  obtain ⟨c, rest, htext, -⟩ := h.first
  rw [item, trim_append hb h hb', if_neg (by simp [htext])]

theorem filter_trim (pieces : List (List Char)) :
    (pieces.map Text.trim).filter (fun piece => !piece.isEmpty) = pieces.flatMap item := by
  induction pieces with
  | nil => rfl
  | cons piece pieces ih =>
    rw [List.map_cons, List.filter_cons, List.flatMap_cons, ← ih, item]
    by_cases h : Text.trim piece = [] <;> simp [h]

theorem split_joinTexts_comma {items : List (List Char)} (h : Separable items) :
    Arguments.split (joinTexts [','] items) = items.flatMap item := by
  by_cases hne : items = []
  · subst hne
    rfl
  · rw [Arguments.split, pieces_joinTexts h hne, filter_trim]

/-- The blank behind a comma may be counted to the text after it. -/
theorem joinTexts_blank (text : List Char) (texts : List (List Char)) :
    joinTexts [',', ' '] (text :: texts) =
      joinTexts [','] (text :: texts.map fun text => ' ' :: text) := by
  induction texts generalizing text with
  | nil => rfl
  | cons text' texts ih =>
    rw [joinTexts_cons _ _ (List.cons_ne_nil _ _), ih, List.map_cons,
      joinTexts_cons _ text (List.cons_ne_nil _ _)]
    cases texts <;> simp [joinTexts]

theorem separable_blank {text : List Char} {texts : List (List Char)}
    (h : Separable (text :: texts)) :
    Separable (text :: texts.map fun text => ' ' :: text) := by
  have hdepth : depth [' '] = 0 := depth_of_blank blank_space
  by_cases hne : texts = []
  · subst hne
    exact h
  · obtain ⟨huncut, htext, htexts⟩ := (separable_cons hne).1 h
    refine (separable_cons (by simpa using hne)).2 ⟨huncut, htext, htexts.map ?_ ?_⟩
    · intro item hitem
      exact (uncut_append hdepth).2 ⟨uncut_of_blank blank_space, hitem⟩
    · intro item
      rw [← List.singleton_append, depth_append, hdepth, zero_add]

/-- Texts without outer blanks, with a comma and a blank between any two, are split again. -/
theorem split_joinTexts_solid {texts : List (List Char)} (h : Separable texts)
    (hsolid : ∀ text ∈ texts, Solid text) :
    Arguments.split (joinTexts [',', ' '] texts) = texts := by
  cases texts with
  | nil => rfl
  | cons text texts =>
    obtain ⟨htext, htexts⟩ := List.forall_mem_cons.1 hsolid
    have hitem {text : List Char} (h : Solid text) : item text = [text] := by
      simpa using item_append blank_nil h blank_nil
    have hblank {text : List Char} (h : Solid text) : item (' ' :: text) = [text] := by
      simpa using item_append blank_space h blank_nil
    rw [joinTexts_blank, split_joinTexts_comma (separable_blank h), List.flatMap_cons,
      hitem htext, List.flatMap_map]
    refine congrArg (text :: ·) ?_
    calc texts.flatMap (fun text => item (' ' :: text))
        = texts.flatMap fun text => [text] := List.flatMap_congr fun t ht => hblank (htexts t ht)
      _ = texts := List.flatMap_singleton' texts

theorem separable_split (inside : List Char) : Separable (Arguments.split inside) := by
  obtain ⟨-, hpieces, -⟩ := pieces_eq_iff.1 (Eq.refl (Arguments.pieces 0 [] inside))
  exact (hpieces.map (fun _ => Uncut.trim) depth_trim).filter _

theorem solid_of_mem_split {inside text : List Char} (h : text ∈ Arguments.split inside) :
    Solid text := by
  obtain ⟨hmem, hne⟩ := List.mem_filter.1 h
  obtain ⟨piece, -, rfl⟩ := List.mem_map.1 hmem
  exact solid_trim (by simpa using hne)

/-! ## Arguments among blanks -/

/-- A text that is an argument between any two commas: neither blank nor with outer blanks, with as
many closing as opening parentheses, and with no comma outside them. -/
structure StandsAlone (text : List Char) : Prop where
  ne_nil : text ≠ []
  trim_eq : Text.trim text = text
  depth_eq : depth text = 0
  uncut : Uncut text

theorem StandsAlone.solid {text : List Char} (h : StandsAlone text) : Solid text := by
  have hne : Text.trim text ≠ [] := by
    rw [h.trim_eq]
    exact h.ne_nil
  have hsolid := solid_trim hne
  rwa [h.trim_eq] at hsolid

/-- The items are the texts, with blanks around them and blank items between them. -/
inductive Spaced : List (List Char) → List (List Char) → Prop where
  | nil : Spaced [] []
  | blank {b : List Char} {texts items : List (List Char)} (hb : Blank b)
      (h : Spaced texts items) : Spaced texts (b :: items)
  | text {b text b' : List Char} {texts items : List (List Char)} (hb : Blank b)
      (hb' : Blank b') (h : Spaced texts items) :
      Spaced (text :: texts) ((b ++ (text ++ b')) :: items)

theorem Spaced.flatMap_item {texts items : List (List Char)} (h : Spaced texts items)
    (hsolid : ∀ text ∈ texts, Solid text) : items.flatMap item = texts := by
  induction h with
  | nil => rfl
  | blank hb _ ih =>
    rw [List.flatMap_cons, item_of_blank hb, List.nil_append, ih hsolid]
  | text hb hb' _ ih =>
    obtain ⟨htext, htexts⟩ := List.forall_mem_cons.1 hsolid
    rw [List.flatMap_cons, item_append hb htext hb', ih htexts, List.singleton_append]

theorem Spaced.separable {texts items : List (List Char)} (h : Spaced texts items)
    (hstands : ∀ text ∈ texts, StandsAlone text) : Separable items := by
  refine separable_of_forall ?_
  induction h with
  | nil => simp
  | blank hb _ ih =>
    exact List.forall_mem_cons.2 ⟨⟨uncut_of_blank hb, depth_of_blank hb⟩, ih hstands⟩
  | text hb hb' _ ih =>
    obtain ⟨htext, htexts⟩ := List.forall_mem_cons.1 hstands
    refine List.forall_mem_cons.2 ⟨⟨?_, ?_⟩, ih htexts⟩
    · rw [uncut_append (depth_of_blank hb), uncut_append htext.depth_eq]
      exact ⟨uncut_of_blank hb, htext.uncut, uncut_of_blank hb'⟩
    · simp [depth_of_blank hb, htext.depth_eq, depth_of_blank hb']

end Grammar

namespace Arguments

open Grammar

/-- Splitting undoes joining.  Arguments are found again between commas, whatever blanks and blank
items are put around them; and the arguments of any text, with a comma and a blank between any two,
are the arguments of what is so written. -/
theorem split_undoes_join :
    (∀ texts items : List (List Char), (∀ text ∈ texts, StandsAlone text) →
      Spaced texts items → split (joinTexts [','] items) = texts) ∧
    ∀ inside : List Char, split (joinTexts [',', ' '] (split inside)) = split inside := by
  constructor
  · intro texts items hstands hspaced
    rw [split_joinTexts_comma (hspaced.separable hstands)]
    exact hspaced.flatMap_item fun text htext => (hstands text htext).solid
  · intro inside
    exact split_joinTexts_solid (separable_split inside) fun _ => solid_of_mem_split

/-- `f(1,2)` and `3` are the arguments in `  , f(1,2),,3 `. -/
theorem split_undoes_join_blank_items :
    (∀ text ∈ ["f(1,2)".toList, "3".toList], StandsAlone text) ∧
      Spaced ["f(1,2)".toList, "3".toList] ["  ".toList, " f(1,2)".toList, [], "3 ".toList] ∧
      split "  , f(1,2),,3 ".toList = ["f(1,2)".toList, "3".toList] := by
  have hstands : ∀ text ∈ ["f(1,2)".toList, "3".toList], StandsAlone text := by
    intro text htext
    rw [List.mem_cons, List.mem_singleton] at htext
    rcases htext with rfl | rfl
    · exact ⟨by decide, by decide, by decide, by decide⟩
    · exact ⟨by decide, by decide, by decide, by decide⟩
  have hspaced : Spaced ["f(1,2)".toList, "3".toList]
      ["  ".toList, " f(1,2)".toList, [], "3 ".toList] :=
    .blank (blank_space.append blank_space)
      (.text blank_space blank_nil (.blank blank_nil (.text blank_nil blank_space .nil)))
  exact ⟨hstands, hspaced, split_undoes_join.1 _ _ hstands hspaced⟩

/-- Behind a parenthesis that closes nothing, commas do not cut until another one opens. -/
example : split "1),2,(3 , ,4".toList = ["1),2,(3".toList, "4".toList] := by decide

end Arguments
end Reckoner
