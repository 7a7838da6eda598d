import ChoiceGrammar.Proofs.Canonical.Literals
import ChoiceGrammar.Proofs.Counting.Lengths
import ChoiceGrammar.Proofs.Expansion.Outputs
import Mathlib.Algebra.Ring.Nat

/-!
# The longest output

Where the canonical text of an expression is not too long for 64 bits, `maxLength` is exact for the
expression and all its parts. Then it is the size of the longest output: none is longer, and there
are words under which an output is as long.
-/

namespace ChoiceGrammar.Expr

theorem IsPart.chars_sublist {part e : Expr} (h : IsPart part e) :
    part.chars.Sublist e.chars := by
  induction h with
  | refl => exact .refl _
  | item hi _ ih => exact ih.trans (chars_sublist_charsConcat hi)
  | branch hb _ ih => exact ih.trans (chars_sublist_alt hb)

theorem longest_le_of_isPart {part e : Expr} (h : IsPart part e) :
    part.longest ≤ e.encode.utf8ByteSize := by
  apply longest_le_of_sublist
  rw [toList_encode]
  exact h.chars_sublist

theorem sum_maxLength {items : List Expr} (h : longestSum items < 2 ^ 64) :
    (items.map fun item => item.maxLength.toNat).sum = longestSum items := by
  induction items with
  | nil => rfl
  | cons item items ih =>
      simp only [longestSum] at h
      have hitem := maxLength_toNat item (by omega)
      have hitems := ih (by omega)
      rw [List.map_cons, List.sum_cons, hitem, hitems, longestSum]

theorem narrow_of_encode {e : Expr} (h : e.encode.utf8ByteSize < 2 ^ 64) : e.Narrow := by
  have hlength := length_toList_le e.encode
  rw [toList_encode] at hlength
  exact narrow_of_length_chars (by omega)

/-- The output of an expansion that ends is at most `maxLength` bytes long, and under some words it
is as long. The canonical text is no shorter, and so no sum of sizes is past 64 bits: it is exact in
every sequence of the tree. -/
theorem maxLength_sound_and_tight {e : Expr} (short : e.encode.utf8ByteSize < 2 ^ 64) :
    (∀ source position out, e.expandFrom source position = some out →
        out.text.utf8ByteSize ≤ e.maxLength.toNat) ∧
      (∃ words position text, e.expandFrom (.scripted words) 0 = some ⟨text, position⟩ ∧
        text.utf8ByteSize = e.maxLength.toNat) ∧
      e.maxLength.toNat ≤ e.encode.utf8ByteSize ∧
      ∀ items, IsPart (seq items) e →
        (seq items).maxLength.toNat = (items.map fun item => item.maxLength.toNat).sum ∧
          (items.map fun item => item.maxLength.toNat).sum ≤ e.encode.utf8ByteSize := by
  have hle := longest_le_of_isPart (.refl e)
  have hexact := maxLength_toNat e (by omega)
  refine ⟨?_, ?_, by omega, ?_⟩
  · intro source position out hexpand
    obtain ⟨text, htext, hwritten⟩ := exists_mem_language_of_expandOnto hexpand
    obtain rfl : out.text = text := by simpa using hwritten
    rw [hexact]
    exact utf8ByteSize_le_longest htext
  · obtain ⟨text, htext, hsize⟩ := exists_longest_text e
    obtain ⟨words, hwords⟩ := exists_words_of_mem_language (narrow_of_encode short) htext
    exact ⟨words, words.length, text, hwords, hsize.trans hexact.symm⟩
  · intro items hpart
    have hitems := longest_le_of_isPart hpart
    have hsum := sum_maxLength (Nat.lt_of_le_of_lt hitems short)
    have hseq := maxLength_toNat (seq items) (Nat.lt_of_le_of_lt hitems short)
    exact ⟨hseq.trans hsum.symm, hsum.trans_le hitems⟩

/-- The branch with the most bytes has fewer characters, and stands behind a branch with a stuck
count. -/
theorem maxLength_sound_and_tight_stuck :
    let wide : Expr := .seq (List.replicate 64 (.alt (.term "") [.term ""]))
    let e : Expr := .seq [.alt wide [.term "abc", .term "éé"], .alt (.term "x") [.term "yz"]]
    e.encode.utf8ByteSize < 2 ^ 64 ∧ wide.count = 18446744073709551615 ∧
      ∃ words position text, e.expandFrom (.scripted words) 0 = some ⟨text, position⟩ ∧
        text.utf8ByteSize = 6 := by
  intro wide e
  have hshort : e.encode.utf8ByteSize < 2 ^ 64 := by decide +kernel
  have hsix : e.maxLength.toNat = 6 := by decide +kernel
  obtain ⟨-, hlongest, -, -⟩ := maxLength_sound_and_tight hshort
  rw [hsix] at hlongest
  exact ⟨hshort, by decide +kernel, hlongest⟩

end ChoiceGrammar.Expr
