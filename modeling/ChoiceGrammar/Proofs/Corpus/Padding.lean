import ChoiceGrammar.Proofs.Corpus.Entries
import ChoiceGrammar.Proofs.Corpus.Lines

/-!
# Blanks around lines

A corpus is loaded from its lines as they are when trimmed. So blanks around a line make no
difference, nor does a carriage return in front of a line feed, nor the line feed that ends the last
line, unless there is nothing else on that line.
-/

namespace ChoiceGrammar.Corpus

variable {config : CorpusConfig}

/-- Blanks that do not end a line. -/
def IsPadding (text : String) : Prop := ∀ c ∈ text.toList, c = ' ' ∨ c = '\t' ∨ c = '\r'

/-- An unbroken line with padding before and after it. -/
structure PaddedLine where
  before : String
  line : String
  after : String
  unbroken : '\n' ∉ line.toList
  before_padding : IsPadding before
  after_padding : IsPadding after

namespace PaddedLine

def written (padded : PaddedLine) : String := padded.before ++ padded.line ++ padded.after

theorem unbroken_written (padded : PaddedLine) : '\n' ∉ padded.written.toList := by
  have hbefore := padded.before_padding '\n'
  have hafter := padded.after_padding '\n'
  simp only [written, String.toList_append, List.mem_append, padded.unbroken, or_false]
  rintro (h | h)
  · simpa using hbefore h
  · simpa using hafter h

theorem trim_written (padded : PaddedLine) :
    trim padded.written.toList = trim padded.line.toList := by
  have hblank {text : String} (h : IsPadding text) : ∀ c ∈ text.toList, isBlank c = true := by
    intro c hc
    rcases h c hc with rfl | rfl | rfl <;> rfl
  rw [written, String.toList_append, String.toList_append,
    trim_append_blanks (hblank padded.after_padding),
    trim_blanks_append (hblank padded.before_padding)]

end PaddedLine

/-- The text of the lines, with the mark at the end of each. -/
def ended (mark : String) (lines : List String) : String := String.join (lines.map (· ++ mark))

theorem parse_congr {text other : String}
    (h : (lines text.toList).map trim = (lines other.toList).map trim) :
    parse config text = parse config other := by
  rw [parse_eq, parse_eq, entries, entries, h]

theorem trim_lines_ended {entries : List String} (h : ∀ entry ∈ entries, '\n' ∉ entry.toList) :
    (lines (ended "\n" entries).toList).map trim = (entries.map String.toList).map trim := by
  have htext : (ended "\n" entries).toList =
      (entries.map String.toList).flatMap (· ++ ['\n']) := by
    simp [ended, String.toList_join, List.flatMap_map]
  rw [htext, trim_lines_flatMap (by simpa using h)]

theorem ended_crlf (entries : List String) :
    ended "\r\n" entries = ended "\n" (entries.map (· ++ "\r")) := by
  have hmark (entry : String) : entry ++ "\r\n" = entry ++ "\r" ++ "\n" := by
    rw [String.append_assoc]
    rfl
  simp only [ended, hmark, List.map_map, Function.comp_def]

/-- Padding around the lines of a corpus makes no difference, whether they end with a line feed or
with a carriage return and a line feed. The last line feed can be left out, unless its line is
empty as it is written. -/
theorem parse_padded_lines (config : CorpusConfig) (entries : List PaddedLine) :
    let plain := entries.map PaddedLine.line
    let written := entries.map PaddedLine.written
    parse config (ended "\n" written) = parse config (ended "\n" plain) ∧
      parse config (ended "\r\n" written) = parse config (ended "\n" written) ∧
      ((∀ last ∈ written.getLast?, last ≠ "") →
        parse config ("\n".intercalate written) = parse config (ended "\n" written)) := by
  intro plain written
  have hplain : ∀ entry ∈ plain, '\n' ∉ entry.toList := by
    intro entry hentry
    obtain ⟨padded, -, rfl⟩ := List.mem_map.mp hentry
    exact padded.unbroken
  have hwritten : ∀ entry ∈ written, '\n' ∉ entry.toList := by
    intro entry hentry
    obtain ⟨padded, -, rfl⟩ := List.mem_map.mp hentry
    exact padded.unbroken_written
  refine ⟨?_, ?_, ?_⟩
  · apply parse_congr
    rw [trim_lines_ended hwritten, trim_lines_ended hplain]
    simp [written, plain, Function.comp_def, PaddedLine.trim_written]
  · apply parse_congr
    have hreturn : ∀ entry ∈ written.map (· ++ "\r"), '\n' ∉ entry.toList := by
      simpa using hwritten
    rw [ended_crlf, trim_lines_ended hreturn, trim_lines_ended hwritten]
    simp [Function.comp_def, trim_append_blank (c := '\r') rfl]
  · intro hlast
    apply parse_congr
    have htext : ("\n".intercalate written).toList =
        ['\n'].intercalate (written.map String.toList) := by
      simp [String.toList_intercalate]
    rw [htext, trim_lines_ended hwritten, trim_lines_intercalate]
    · simpa using hwritten
    · simpa using hlast

/-- Carriage returns stand before and after the lines, the second line is nothing but padding, and
the comment mark is a blank, which no trimmed line can begin with. -/
theorem parse_padded_lines_carriage :
    let config : CorpusConfig := ⟨'\t', false, 1⟩
    parse config "\r a\r\n\t\n\r<b\r" = parse config "a\n\n<b\n" ∧
      parse config "\r a\r\n\t\n\r<b\r" =
        .error (.atLine 3 (.markup (.unterminated 0))) := by
  intro config
  let entries : List PaddedLine :=
    [⟨"\r ", "a", "\r", by simp, by simp [IsPadding], by simp [IsPadding]⟩,
      ⟨"\t", "", "", by simp, by simp [IsPadding], by simp [IsPadding]⟩,
      ⟨"\r", "<b", "\r", by simp, by simp [IsPadding], by simp [IsPadding]⟩]
  obtain ⟨hpadded, -, hleft⟩ := parse_padded_lines config entries
  have hsame := (hleft (by decide)).trans hpadded
  have hrefused : parse config "a\n\n<b\n" = .error (.atLine 3 (.markup (.unterminated 0))) := by
    decide
  have hboth : parse config "\r a\r\n\t\n\r<b\r" = parse config "a\n\n<b\n" := hsame
  exact ⟨hboth, hboth.trans hrefused⟩

end ChoiceGrammar.Corpus
