import ChoiceGrammar.Proofs.Canonical.Alike
import ChoiceGrammar.Proofs.Canonical.Legible
import ChoiceGrammar.Proofs.Expansion.Texts

/-!
# Canonical text and the texts of a tree

The canonical text of a tree holds the canonical texts of its parts, one character or more for every
branch, and for a legible tree all the characters of each of its texts, in their order.
-/

namespace ChoiceGrammar

open Markup

namespace Expr

theorem chars_sublist_charsConcat {es : List Expr} {e : Expr} (h : e ∈ es) :
    e.chars.Sublist (charsConcat es) := by
  rw [charsConcat_eq]
  exact List.sublist_flatten_of_mem (List.mem_map_of_mem h)

theorem chars_sublist_charsBarred {es : List Expr} {e : Expr} (h : e ∈ es) :
    e.chars.Sublist (charsBarred es) := by
  have hbar : ('|' :: e.chars).Sublist (es.flatMap fun branch => '|' :: branch.chars) :=
    List.sublist_flatten_of_mem (List.mem_map_of_mem h)
  rw [charsBarred_eq]
  exact ((List.sublist_cons_self '|' e.chars).trans hbar).trans (List.sublist_append_left _ _)

theorem chars_sublist_alt {first branch : Expr} {rest : List Expr} (h : branch ∈ first :: rest) :
    branch.chars.Sublist (alt first rest).chars := by
  rw [chars]
  apply List.Sublist.cons
  rcases List.mem_cons.mp h with rfl | hrest
  · exact List.sublist_append_left _ _
  · exact List.sublist_append_of_sublist_right (chars_sublist_charsBarred hrest)

theorem length_lt_charsBarred (es : List Expr) : es.length < (charsBarred es).length := by
  induction es with
  | nil => exact Nat.one_pos
  | cons e es ih =>
      simp only [charsBarred, List.length_cons, List.length_append]
      omega

theorem narrow_of_length_chars {e : Expr} (h : e.chars.length < 2 ^ 64) : e.Narrow := by
  induction e using Expr.induct with
  | term _ => trivial
  | empty => trivial
  | seq items ih =>
      apply allNarrow_iff.mpr
      intro item hi
      exact ih item hi (Nat.lt_of_le_of_lt (chars_sublist_charsConcat hi).length_le h)
  | alt first rest ih =>
      have hall : AllNarrow (first :: rest) := by
        apply allNarrow_iff.mpr
        intro branch hbranch
        exact ih branch hbranch (Nat.lt_of_le_of_lt (chars_sublist_alt hbranch).length_le h)
      have hbarred := length_lt_charsBarred rest
      simp only [chars, List.length_cons, List.length_append] at h
      exact ⟨by omega, hall⟩

theorem languageAll_sublist_literals {es : List Expr}
    (h : ∀ e ∈ es, ∀ {text}, text ∈ e.language →
      text.toList.Sublist (e.chars.filter fun c => !isDelimiter c))
    {text : String} (ht : text ∈ languageAll es) :
    text.toList.Sublist ((charsConcat es).filter fun c => !isDelimiter c) := by
  induction es generalizing text with
  | nil =>
      obtain rfl : text = "" := ht
      exact .slnil
  | cons e es ih =>
      obtain ⟨s, hs, t, ht, rfl⟩ := ht
      rw [charsConcat, List.filter_append, String.toList_append]
      exact (h e (by simp) hs).append (ih (fun x hx => h x (by simp [hx])) ht)

theorem language_sublist_literals {e : Expr} (h : e.Legible) {text : String}
    (ht : text ∈ e.language) :
    text.toList.Sublist (e.chars.filter fun c => !isDelimiter c) := by
  induction e using Expr.induct generalizing text with
  | term literal =>
      obtain rfl : text = literal := ht
      have hall : text.toList.filter (fun c => !isDelimiter c) = text.toList := by
        apply List.filter_eq_self.mpr
        intro c hc
        rw [h c hc]
        rfl
      rw [chars, hall]
  | empty =>
      obtain rfl : text = "" := ht
      exact .slnil
  | seq items ih =>
      have hitems : AllLegible items := h
      exact languageAll_sublist_literals
        (fun item hi => ih item hi (allLegible_iff.mp hitems item hi)) ht
  | alt first rest ih =>
      obtain ⟨-, -, hbranches⟩ := h
      have hlegible : AllLegible (first :: rest) := hbranches
      obtain ⟨branch, hbranch, htext⟩ := mem_language_alt.mp ht
      have hsub := ih branch hbranch (allLegible_iff.mp hlegible branch hbranch) htext
      exact hsub.trans ((chars_sublist_alt hbranch).filter _)

end Expr

end ChoiceGrammar
