import ChoiceGrammar.Expr.Encode
import ChoiceGrammar.Proofs.Expansion.Texts
import Mathlib.Data.String.Basic

/-!
# Exact lengths

`longest` is the size of the longest text without a bound. No text of an expression is longer, some
text is as long, and the canonical text is at least as long. Where it fits into 64 bits it is what
`maxLength` computes.
-/

namespace ChoiceGrammar.Expr

open String (utf8Len)

mutual
/-- The exact size in bytes of the longest text. -/
def longest : Expr → Nat
  | term text => text.utf8ByteSize
  | empty => 0
  | seq items => longestSum items
  | alt first rest => max first.longest (longestMax rest)

def longestSum : List Expr → Nat
  | [] => 0
  | item :: items => item.longest + longestSum items

def longestMax : List Expr → Nat
  | [] => 0
  | branch :: branches => max branch.longest (longestMax branches)
end

theorem longestMax_le {branches : List Expr} {n : Nat}
    (h : ∀ branch ∈ branches, branch.longest ≤ n) :
    longestMax branches ≤ n := by
  induction branches with
  | nil => exact Nat.zero_le n
  | cons branch branches ih =>
      obtain ⟨hbranch, hbranches⟩ := List.forall_mem_cons.mp h
      exact Nat.max_le.mpr ⟨hbranch, ih hbranches⟩

theorem longest_le_longestMax {branches : List Expr} {branch : Expr} (h : branch ∈ branches) :
    branch.longest ≤ longestMax branches := by
  induction branches with
  | nil => simp at h
  | cons first rest ih =>
      rcases List.mem_cons.mp h with rfl | hrest
      · exact Nat.le_max_left _ _
      · exact Nat.le_trans (ih hrest) (Nat.le_max_right _ _)

theorem exists_longest_branch (first : Expr) (rest : List Expr) :
    ∃ branch ∈ first :: rest, branch.longest = longestMax (first :: rest) := by
  induction rest generalizing first with
  | nil => exact ⟨first, by simp, (Nat.max_zero _).symm⟩
  | cons second rest ih =>
      obtain ⟨branch, hbranch, hlongest⟩ := ih second
      by_cases hle : first.longest ≤ branch.longest
      · refine ⟨branch, List.mem_cons_of_mem first hbranch, ?_⟩
        rw [longestMax, ← hlongest, Nat.max_eq_right hle]
      · refine ⟨first, by simp, ?_⟩
        rw [longestMax, ← hlongest, Nat.max_eq_left (Nat.le_of_not_le hle)]

theorem longest_alt (first : Expr) (rest : List Expr) :
    (alt first rest).longest = longestMax (first :: rest) := rfl

theorem max_toNat (a b : UInt64) : (max a b).toNat = max a.toNat b.toNat := by
  change (if a ≤ b then b else a).toNat = if a.toNat ≤ b.toNat then b.toNat else a.toNat
  simp only [UInt64.le_iff_toNat_le]
  exact apply_ite UInt64.toNat _ b a

mutual
theorem maxLength_toNat (e : Expr) (h : e.longest < 2 ^ 64) : e.maxLength.toNat = e.longest := by
  cases e with
  | term text => exact Nat.mod_eq_of_lt h
  | empty => rfl
  | seq items => exact lengthSum_toNat items h
  | alt first rest =>
      simp only [longest] at h
      have hfirst := maxLength_toNat first (by omega)
      have hrest := lengthMax_toNat rest (by omega)
      rw [maxLength, max_toNat, hfirst, hrest, longest]

theorem lengthSum_toNat (items : List Expr) (h : longestSum items < 2 ^ 64) :
    (lengthSum items).toNat = longestSum items := by
  cases items with
  | nil => rfl
  | cons item items =>
      simp only [longestSum] at h
      have hitem := maxLength_toNat item (by omega)
      have hitems := lengthSum_toNat items (by omega)
      rw [lengthSum, UInt64.toNat_add, hitem, hitems, longestSum]
      exact Nat.mod_eq_of_lt h

theorem lengthMax_toNat (branches : List Expr) (h : longestMax branches < 2 ^ 64) :
    (lengthMax branches).toNat = longestMax branches := by
  cases branches with
  | nil => rfl
  | cons branch branches =>
      simp only [longestMax] at h
      have hbranch := maxLength_toNat branch (by omega)
      have hbranches := lengthMax_toNat branches (by omega)
      rw [lengthMax, max_toNat, hbranch, hbranches, longestMax]
end

theorem length_le_utf8Len (text : List Char) : text.length ≤ utf8Len text := by
  induction text with
  | nil => exact Nat.le_refl 0
  | cons c cs ih =>
      have hc := c.utf8Size_pos
      rw [List.length_cons, String.utf8Len_cons]
      omega

theorem length_toList_le (text : String) : text.toList.length ≤ text.utf8ByteSize := by
  rw [← String.utf8Len_toList]
  exact length_le_utf8Len text.toList

theorem utf8ByteSize_le_longestSum {items : List Expr}
    (h : ∀ item ∈ items, ∀ {text}, text ∈ item.language → text.utf8ByteSize ≤ item.longest)
    {text : String} (ht : text ∈ languageAll items) : text.utf8ByteSize ≤ longestSum items := by
  induction items generalizing text with
  | nil =>
      obtain rfl : text = "" := ht
      exact Nat.zero_le _
  | cons item items ih =>
      obtain ⟨s, hs, t, ht, rfl⟩ := ht
      have hitem := h item (by simp) hs
      have hitems := ih (fun e he => h e (by simp [he])) ht
      rw [String.utf8ByteSize_append, longestSum]
      omega

theorem utf8ByteSize_le_longest {e : Expr} {text : String} (h : text ∈ e.language) :
    text.utf8ByteSize ≤ e.longest := by
  induction e using induct generalizing text with
  | term literal =>
      obtain rfl : text = literal := h
      exact Nat.le_refl _
  | empty =>
      obtain rfl : text = "" := h
      exact Nat.zero_le _
  | seq items ih => exact utf8ByteSize_le_longestSum (fun item hi => ih item hi) h
  | alt first rest ih =>
      obtain ⟨branch, hbranch, htext⟩ := mem_language_alt.mp h
      rw [longest_alt]
      exact Nat.le_trans (ih branch hbranch htext) (longest_le_longestMax hbranch)

theorem exists_text_of_items {items : List Expr}
    (h : ∀ item ∈ items, ∃ text ∈ item.language, text.utf8ByteSize = item.longest) :
    ∃ text ∈ languageAll items, text.utf8ByteSize = longestSum items := by
  induction items with
  | nil => exact ⟨"", rfl, rfl⟩
  | cons item items ih =>
      obtain ⟨s, hs, hsize⟩ := h item (by simp)
      obtain ⟨t, ht, hsizes⟩ := ih fun e he => h e (by simp [he])
      refine ⟨s ++ t, ⟨s, hs, t, ht, rfl⟩, ?_⟩
      rw [String.utf8ByteSize_append, hsize, hsizes, longestSum]

/-- The longest branches of all alternations can be had in one text. -/
theorem exists_longest_text (e : Expr) :
    ∃ text ∈ e.language, text.utf8ByteSize = e.longest := by
  induction e using induct with
  | term literal => exact ⟨literal, rfl, rfl⟩
  | empty => exact ⟨"", rfl, rfl⟩
  | seq items ih => exact exists_text_of_items ih
  | alt first rest ih =>
      obtain ⟨branch, hbranch, hlongest⟩ := exists_longest_branch first rest
      obtain ⟨text, htext, hsize⟩ := ih branch hbranch
      exact ⟨text, mem_language_alt.mpr ⟨branch, hbranch, htext⟩, hsize.trans hlongest⟩

mutual
theorem longest_le_utf8Len (e : Expr) : e.longest ≤ utf8Len e.chars := by
  cases e with
  | term text => rw [longest, chars, String.utf8Len_toList]
  | empty => exact Nat.le_refl 0
  | seq items => exact longestSum_le_utf8Len items
  | alt first rest =>
      have hfirst := longest_le_utf8Len first
      have hrest := longestMax_le_utf8Len rest
      simp only [longest, chars, String.utf8Len_cons, String.utf8Len_append]
      omega

theorem longestSum_le_utf8Len (items : List Expr) :
    longestSum items ≤ utf8Len (charsConcat items) := by
  cases items with
  | nil => exact Nat.le_refl 0
  | cons item items =>
      have hitem := longest_le_utf8Len item
      have hitems := longestSum_le_utf8Len items
      simp only [longestSum, charsConcat, String.utf8Len_append]
      omega

theorem longestMax_le_utf8Len (branches : List Expr) :
    longestMax branches ≤ utf8Len (charsBarred branches) := by
  cases branches with
  | nil => exact Nat.zero_le _
  | cons branch branches =>
      have hbranch := longest_le_utf8Len branch
      have hbranches := longestMax_le_utf8Len branches
      simp only [longestMax, charsBarred, String.utf8Len_cons, String.utf8Len_append]
      omega
end

theorem longest_le_of_sublist {e : Expr} {text : String} (h : e.chars.Sublist text.toList) :
    e.longest ≤ text.utf8ByteSize := by
  calc
    e.longest ≤ utf8Len e.chars := longest_le_utf8Len e
    _ ≤ utf8Len text.toList := String.utf8Len_le_of_sublist h
    _ = text.utf8ByteSize := String.utf8Len_toList text

end ChoiceGrammar.Expr
