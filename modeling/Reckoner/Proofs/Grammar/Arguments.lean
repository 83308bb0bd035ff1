import Mathlib
import Reckoner.Proofs.Grammar.Parentheses

/-!
# Arguments of a call

A balanced text is cut at its outer commas into texts that are balanced themselves
(`Balanced.cut`), and trimming keeps them balanced (`Balanced.trim`).  So the arguments of a call
are balanced and trimmed, and none is empty (`isArgument_of_mem_split`).  Such texts, with a comma
and a blank between any two, are split into themselves again (`split_joinTexts`).
-/

namespace Reckoner
namespace Grammar

/-! ## Parts of balanced texts -/

section Balanced

variable {commas : Bool} {text : List Char}

theorem Balanced.of_cons {c : Char} (h : Balanced commas (c :: text)) (hopen : c ≠ '(') :
    Balanced commas text := by
  generalize hwhole : c :: text = whole at h
  induction h generalizing text with
  | nil => cases hwhole
  | char =>
    cases hwhole
    exact .nil
  | append hs ht ihs iht =>
    rcases List.append_eq_cons_iff.1 hwhole.symm with ⟨-, ht'⟩ | ⟨s', hs', rfl⟩
    · exact iht ht'.symm
    · exact .append (ihs hs'.symm) ht
  | group h => exact absurd (List.cons.inj hwhole).1 hopen

theorem Balanced.of_concat {c : Char} (h : Balanced commas (text ++ [c])) (hclose : c ≠ ')') :
    Balanced commas text := by
  generalize hwhole : text ++ [c] = whole at h
  induction h generalizing text with
  | nil => simp at hwhole
  | char =>
    obtain ⟨rfl, -⟩ := List.append_inj' (hwhole.trans (List.nil_append _).symm) rfl
    exact .nil
  | @append _ s t hs ht ihs iht =>
    rcases List.eq_nil_or_concat t with rfl | ⟨t', d, rfl⟩
    · exact ihs (hwhole.trans (List.append_nil _))
    · rw [List.concat_eq_append, ← List.append_assoc] at hwhole
      obtain ⟨rfl, hd⟩ := List.append_inj' hwhole rfl
      rw [List.concat_eq_append] at iht
      exact .append hs (iht (congrArg _ hd))
  | group h => exact absurd (List.cons.inj (List.append_inj' hwhole rfl).2).1 hclose

theorem Balanced.of_blank_append {b : List Char} (hb : Blank b)
    (h : Balanced commas (b ++ text)) : Balanced commas text := by
  induction b with
  | nil => exact h
  | cons c b ih =>
    obtain ⟨hc, hb⟩ := List.forall_mem_cons.1 hb
    refine ih hb (h.of_cons ?_)
    rintro rfl
    cases hc

theorem Balanced.of_append_blank {b : List Char} (hb : Blank b)
    (h : Balanced commas (text ++ b)) : Balanced commas text := by
  induction b using List.reverseRecOn with
  | nil => rwa [List.append_nil] at h
  | append_singleton b c ih =>
    rw [← List.append_assoc] at h
    refine ih (fun d hd => hb d (by simp [hd])) (h.of_concat ?_)
    rintro rfl
    exact absurd (hb ')' (by simp)) (by decide)

theorem Balanced.trim (h : Balanced commas text) : Balanced commas (Text.trim text) := by
  obtain ⟨b, b', hb, hb', htext⟩ := exists_trim text
  rw [htext] at h
  exact (h.of_blank_append hb).of_append_blank hb'

/-- A balanced text has no outer commas, or falls into two at the first of them. -/
theorem Balanced.cut (h : Balanced true text) :
    Balanced false text ∨
      ∃ s t, text = s ++ ',' :: t ∧ Balanced false s ∧ Balanced true t := by
  generalize hcommas : true = commas at h
  induction h with
  | nil => exact .inl .nil
  | @char commas c hopen hclose _ =>
    by_cases hc : c = ','
    · exact .inr ⟨[], [], by rw [hc, List.nil_append], .nil, .nil⟩
    · exact .inl (.char hopen hclose fun h => absurd h hc)
  | @append commas s t hs ht ihs iht =>
    subst hcommas
    rcases ihs rfl with hs' | ⟨u, v, rfl, hu, hv⟩
    · rcases iht rfl with ht' | ⟨u, v, rfl, hu, hv⟩
      · exact .inl (.append hs' ht')
      · exact .inr ⟨s ++ u, v, by rw [List.append_assoc], .append hs' hu, hv⟩
    · exact .inr ⟨u, v ++ t, by simp, hu, .append hv ht⟩
  | group h => exact .inl (.group h)

end Balanced

/-! ## Arguments -/

/-- A text that is an argument as it stands: balanced, without outer commas or outer blanks, and
not empty. -/
structure IsArgument (text : List Char) : Prop where
  balanced : Balanced false text
  solid : Solid text

theorem isArgument_of_mem_item {piece text : List Char} (hpiece : Balanced false piece)
    (h : text ∈ item piece) : IsArgument text := by
  rw [item] at h
  split at h
  · cases h
  · rename_i hne
    rw [List.mem_singleton.1 h]
    exact ⟨hpiece.trim, solid_trim hne⟩

theorem isArgument_of_mem_split {inside text : List Char} (hinside : Balanced true inside)
    (h : text ∈ Arguments.split inside) : IsArgument text := by
  rcases hinside.cut with hlast | ⟨piece, rest, hcut, hpiece, hrest⟩
  · rw [split_last hlast] at h
    exact isArgument_of_mem_item hlast h
  · rw [hcut, split_comma hpiece, List.mem_append] at h
    rcases h with h | h
    · exact isArgument_of_mem_item hpiece h
    · exact isArgument_of_mem_split hrest h
termination_by inside.length
decreasing_by
  rw [hcut, List.length_append, List.length_cons]
  omega

theorem IsArgument.standsAlone {text : List Char} (h : IsArgument text) : StandsAlone text := by
  obtain ⟨c, rest, htext, -⟩ := h.solid.first
  exact ⟨by simp [htext], h.solid.trim_eq, h.balanced.depth_eq, h.balanced.uncut⟩

/-- Arguments that are written one after the other are split again. -/
theorem split_joinTexts {texts : List (List Char)} (h : ∀ text ∈ texts, IsArgument text) :
    Arguments.split (joinTexts [',', ' '] texts) = texts := by
  have hstands (text : List Char) (htext : text ∈ texts) := (h text htext).standsAlone
  have hseparable : Separable texts := separable_of_forall fun text htext =>
    ⟨(hstands text htext).uncut, (hstands text htext).depth_eq⟩
  exact split_joinTexts_solid hseparable fun text htext => (hstands text htext).solid

theorem balanced_joinTexts {texts : List (List Char)} (h : ∀ text ∈ texts, IsArgument text) :
    Balanced true (joinTexts [',', ' '] texts) := by
  have hseparator : Balanced true [',', ' '] :=
    .append (s := [',']) (.char (by decide) (by decide) fun _ => rfl)
      (balanced_of_blank blank_space)
  induction texts with
  | nil => exact .nil
  | cons text texts ih =>
    obtain ⟨htext, htexts⟩ := List.forall_mem_cons.1 h
    by_cases hrest : texts = []
    · subst hrest
      exact htext.balanced.allow_commas
    · rw [joinTexts_cons _ _ hrest]
      exact .append htext.balanced.allow_commas (.append hseparator (ih htexts))

end Grammar
end Reckoner
