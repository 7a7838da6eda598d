import ChoiceGrammar.Proofs.Canonical.Literals
import ChoiceGrammar.Proofs.Canonical.Striking
import ChoiceGrammar.Proofs.Corpus.Lines
import ChoiceGrammar.Proofs.Counting.Lengths

/-!
# The branches of a corpus

A branch of a corpus is parsed from a part of its text, so that there are no more branches than the
text has characters, and none has longer texts than the text is long. No text of a corpus holds a
delimiter or a line feed.
-/

namespace ChoiceGrammar.Corpus

open Markup

variable {config : CorpusConfig} {text : String} {first : Expr} {rest : List Expr}

theorem branch_of_parse (h : parse config text = .ok (.alt first rest)) :
    ∀ branch ∈ first :: rest,
      branch.Legible ∧ '\n' ∉ branch.chars ∧ branch.chars.Sublist text.toList := by
  intro branch hbranch
  obtain ⟨entry, hentry, hbranch⟩ := exists_mem_of_forall₂ (forall₂_of_parse h) hbranch
  obtain ⟨line, hline, rfl⟩ := List.mem_map.mp (List.mem_filter.mp hentry).1
  obtain ⟨hunbroken, hpart⟩ := mem_lines hline
  obtain ⟨items, hd, -, rfl⟩ := derives_of_read hbranch
  have hsub : (collapse items).chars.Sublist line := by
    have hstrikes := strikes_collapse items
    rw [hd.chars_eq] at hstrikes
    exact hstrikes.sublist.trans (trim_sublist line)
  refine ⟨(Expr.legible_of_parseChars hbranch).1, ?_, hsub.trans hpart⟩
  intro hmem
  exact hunbroken (hsub.subset hmem)

theorem length_branches_le (h : parse config text = .ok (.alt first rest)) :
    (first :: rest).length ≤ text.toList.length := by
  calc
    (first :: rest).length
        = (((lines text.toList).map trim).filter (isKept config)).length :=
      (forall₂_of_parse h).length_eq.symm
    _ ≤ ((lines text.toList).map trim).length := List.length_filter_le _ _
    _ ≤ text.toList.length := by
      rw [List.length_map]
      exact length_lines_le text.toList

theorem narrow_of_parse {e : Expr} (h : parse config text = .ok e)
    (hsize : text.utf8ByteSize < 2 ^ 64) : e.Narrow := by
  obtain ⟨first, rest, rfl, -⟩ := parse_eq_alt h
  have hlength := Expr.length_toList_le text
  refine ⟨Nat.lt_of_le_of_lt (length_branches_le h) (by omega), ?_⟩
  have hall : Expr.AllNarrow (first :: rest) := by
    apply Expr.allNarrow_iff.mpr
    intro branch hbranch
    have hpart := (branch_of_parse h branch hbranch).2.2.length_le
    exact Expr.narrow_of_length_chars (by omega)
  exact hall

theorem longest_le_of_parse {e : Expr} (h : parse config text = .ok e) :
    e.longest ≤ text.utf8ByteSize := by
  obtain ⟨first, rest, rfl, -⟩ := parse_eq_alt h
  rw [Expr.longest_alt]
  apply Expr.longestMax_le
  intro branch hbranch
  exact Expr.longest_le_of_sublist (branch_of_parse h branch hbranch).2.2

/-- No delimiter and no line feed is left in the texts of a corpus. -/
theorem plain_of_mem_language {e : Expr} (h : parse config text = .ok e) {output : String}
    (houtput : output ∈ e.language) : ∀ c ∈ output.toList, isDelimiter c = false ∧ c ≠ '\n' := by
  obtain ⟨first, rest, rfl, -⟩ := parse_eq_alt h
  obtain ⟨branch, hbranch, hmem⟩ := Expr.mem_language_alt.mp houtput
  obtain ⟨hlegible, hunbroken, -⟩ := branch_of_parse h branch hbranch
  have hsub := Expr.language_sublist_literals hlegible hmem
  intro c hc
  obtain ⟨hchars, hplain⟩ := List.mem_filter.mp (hsub.subset hc)
  refine ⟨by simpa using hplain, ?_⟩
  rintro rfl
  exact hunbroken hchars

end ChoiceGrammar.Corpus
