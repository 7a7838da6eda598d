import ChoiceGrammar.Corpus.Lines
import Mathlib.Data.List.DropRight
import Mathlib.Data.List.Forall2

/-!
# Splitting and trimming

The lines of a text and the trimmed form of a line, said without the functions that find them:
`SplitsInto` and `TrimsTo`. A text is a line without a line feed, or such a line, a line feed and a
text, and its lines come one by one in the same way, each without the carriage return that its end
may have. Trimming takes that carriage return off as well.
-/

namespace ChoiceGrammar.Corpus

variable {line inner text : List Char}

/-- The lines of a text. A line ends with a line feed, or with a carriage return and a line feed;
only the last may end with the text, and then it is not empty. -/
inductive SplitsInto : (text : List Char) → (lines : List (List Char)) → Prop where
  | nothing : SplitsInto [] []
  | last {line : List Char} (hne : line ≠ []) (hline : '\n' ∉ line) : SplitsInto line [line]
  | feed {line text : List Char} {lines : List (List Char)} (hline : '\n' ∉ line)
      (hend : line.getLast? ≠ some '\r') (h : SplitsInto text lines) :
      SplitsInto (line ++ '\n' :: text) (line :: lines)
  | carriage {line text : List Char} {lines : List (List Char)} (hline : '\n' ∉ line)
      (h : SplitsInto text lines) : SplitsInto (line ++ '\r' :: '\n' :: text) (line :: lines)

def blanks : List Char := [' ', '\t', '\r', '\n']

/-- A line is blanks, its trimmed form and blanks, and the trimmed form has no blank at its ends. -/
structure TrimsTo (line inner : List Char) : Prop where
  margins : ∃ before after, line = before ++ inner ++ after ∧ ∀ c ∈ before ++ after, c ∈ blanks
  head : ∀ c ∈ inner.head?, c ∉ blanks
  last : ∀ c ∈ inner.getLast?, c ∉ blanks

/-- The trimmed forms of the lines of a text, in their order. -/
def TrimmedLines (text : List Char) (trimmed : List (List Char)) : Prop :=
  ∃ lines, SplitsInto text lines ∧ List.Forall₂ TrimsTo lines trimmed

/-- What holds of every unbroken line, and passes on to a text with such a line in front, holds of
every text. -/
@[elab_as_elim]
theorem text_induct {P : List Char → Prop} (last : ∀ line, '\n' ∉ line → P line)
    (step : ∀ line text, '\n' ∉ line → P text → P (line ++ '\n' :: text)) (text : List Char) :
    P text := by
  induction hn : text.length using Nat.strong_induction_on generalizing text with
  | _ n ih =>
      by_cases hmem : '\n' ∈ text
      · obtain ⟨line, rest, rfl, hline⟩ := List.eq_append_cons_of_mem hmem
        apply step line rest hline
        exact ih rest.length (by simp [← hn]; omega) rest rfl
      · exact last text hmem

/-- A line without the carriage return at its end. -/
def chopped (line : List Char) : List Char :=
  if line.getLast? = some '\r' then line.dropLast else line

theorem chopped_eq_or (line : List Char) : chopped line = line ∨ chopped line ++ ['\r'] = line := by
  unfold chopped
  split
  · next h =>
      right
      exact List.dropLast_append_getLast? '\r' h
  · exact .inl rfl

theorem chopped_cons (c : Char) (h : line ≠ []) : chopped (c :: line) = c :: chopped line := by
  unfold chopped
  rw [List.dropLast_cons_of_ne_nil h]
  cases line with
  | nil => exact absurd rfl h
  | cons d ds =>
      rw [List.getLast?_cons_cons]
      split <;> rfl

theorem linesFrom_cons {c : Char} (pending : List Char) (hc : c ≠ '\n')
    (hcr : c = '\r' → text.head? ≠ some '\n') :
    linesFrom pending (c :: text) = linesFrom (c :: pending) text := by
  rw [linesFrom]
  · rintro rest rfl rfl
    simp at hcr
  · exact hc

theorem linesFrom_line (hline : '\n' ∉ line) (pending text : List Char) :
    linesFrom pending (line ++ '\n' :: text) = (pending.reverse ++ chopped line) :: lines text := by
  induction line generalizing pending with
  | nil => cases pending <;> simp [linesFrom, chopped, lines]
  | cons c cs ih =>
      have hc : c ≠ '\n' := fun h => hline (by simp [h])
      have hcs : '\n' ∉ cs := fun h => hline (by simp [h])
      by_cases hnil : cs = []
      · subst hnil
        by_cases hcr : c = '\r'
        · simp [hcr, linesFrom, chopped, lines]
        · rw [List.cons_append, linesFrom_cons pending hc (fun h => absurd h hcr), ih hcs]
          simp [chopped, hcr]
      · have hhead : (cs ++ '\n' :: text).head? ≠ some '\n' := by
          cases cs with
          | nil => exact absurd rfl hnil
          | cons d ds => simpa using fun h => hcs (by simp [h])
        rw [List.cons_append, linesFrom_cons pending hc (fun _ => hhead), ih hcs,
          chopped_cons c hnil, List.reverse_cons, List.append_assoc, List.singleton_append]

theorem linesFrom_last (hline : '\n' ∉ line) (pending : List Char) :
    linesFrom pending line =
      if pending.reverse ++ line = [] then [] else [pending.reverse ++ line] := by
  induction line generalizing pending with
  | nil => cases pending <;> simp [linesFrom]
  | cons c cs ih =>
      have hc : c ≠ '\n' := fun h => hline (by simp [h])
      have hcs : '\n' ∉ cs := fun h => hline (by simp [h])
      have hhead : cs.head? ≠ some '\n' := fun h => hcs (List.mem_of_mem_head? h)
      rw [linesFrom_cons pending hc (fun _ => hhead), ih hcs]
      simp

theorem lines_line (hline : '\n' ∉ line) (text : List Char) :
    lines (line ++ '\n' :: text) = chopped line :: lines text := by
  rw [lines, linesFrom_line hline]
  rfl

theorem lines_last (hline : '\n' ∉ line) : lines line = if line = [] then [] else [line] := by
  rw [lines, linesFrom_last hline]
  rfl

theorem splitsInto_lines (text : List Char) : SplitsInto text (lines text) := by
  induction text using text_induct with
  | last line hline =>
      rw [lines_last hline]
      split
      · next hnil =>
          rw [hnil]
          exact .nothing
      · next hne => exact .last hne hline
  | step line text hline ih =>
      rw [lines_line hline]
      by_cases hend : line.getLast? = some '\r'
      · have hinit : '\n' ∉ line.dropLast := fun h => hline (List.dropLast_subset line h)
        have hsplit := SplitsInto.carriage hinit ih
        rw [← List.singleton_append, ← List.append_assoc,
          List.dropLast_append_getLast? '\r' hend] at hsplit
        rwa [chopped, if_pos hend]
      · rw [chopped, if_neg hend]
        exact .feed hline hend ih

theorem splitsInto_iff {ls : List (List Char)} : SplitsInto text ls ↔ lines text = ls := by
  constructor
  · intro h
    induction h with
    | nothing => rfl
    | last hne hline => rw [lines_last hline, if_neg hne]
    | feed hline hend _ ih => rw [lines_line hline, ih, chopped, if_neg hend]
    | @carriage line text _ hline _ ih =>
        have hended : '\n' ∉ line ++ ['\r'] := by simp [hline]
        have hlines := lines_line hended text
        have hchopped : chopped (line ++ ['\r']) = line := by simp [chopped]
        rwa [hchopped, ih, List.append_assoc, List.singleton_append] at hlines
  · rintro rfl
    exact splitsInto_lines text

theorem length_lines_le (text : List Char) : (lines text).length ≤ text.length := by
  induction text using text_induct with
  | last line hline =>
      rw [lines_last hline]
      split
      · exact Nat.zero_le _
      · next hne => exact List.length_pos_iff.mpr hne
  | step line text hline ih =>
      rw [lines_line hline]
      simp only [List.length_cons, List.length_append]
      omega

theorem mem_lines {text line : List Char} (h : line ∈ lines text) :
    '\n' ∉ line ∧ line.Sublist text := by
  induction text using text_induct with
  | last last hlast =>
      rw [lines_last hlast] at h
      split at h
      · simp at h
      · obtain rfl := List.mem_singleton.mp h
        exact ⟨hlast, .refl _⟩
  | step first text hfirst ih =>
      rw [lines_line hfirst] at h
      rcases List.mem_cons.mp h with rfl | h
      · have hsub : (chopped first).Sublist first := by
          unfold chopped
          split
          · exact List.dropLast_sublist first
          · exact .refl _
        exact ⟨fun hmem => hfirst (hsub.subset hmem), hsub.trans (List.sublist_append_left _ _)⟩
      · obtain ⟨hline, hsub⟩ := ih h
        exact ⟨hline, hsub.trans ((List.sublist_cons_self _ _).trans
          (List.sublist_append_right _ _))⟩

theorem trim_sublist (line : List Char) : (trim line).Sublist line :=
  (List.rdropWhile_prefix isBlank _).sublist.trans (List.dropWhile_sublist _)

theorem trim_append_blank {c : Char} (hc : isBlank c = true) (line : List Char) :
    trim (line ++ [c]) = trim line := by
  change ((line ++ [c]).dropWhile isBlank).rdropWhile isBlank =
    (line.dropWhile isBlank).rdropWhile isBlank
  rw [List.dropWhile_append]
  split
  · next hempty =>
      rw [List.isEmpty_iff.mp hempty, List.dropWhile_cons_of_pos hc, List.dropWhile_nil]
  · exact List.rdropWhile_concat_pos _ _ c hc

theorem trim_chopped (line : List Char) : trim (chopped line) = trim line := by
  rcases chopped_eq_or line with h | h
  · rw [h]
  · nth_rewrite 2 [← h]
    rw [trim_append_blank rfl]

theorem trim_append_blanks {after : List Char} (h : ∀ c ∈ after, isBlank c = true)
    (line : List Char) : trim (line ++ after) = trim line := by
  induction after using List.reverseRecOn with
  | nil => rw [List.append_nil]
  | append_singleton after c ih =>
      have hc := h c (by simp)
      rw [← List.append_assoc, trim_append_blank hc, ih fun d hd => h d (by simp [hd])]

theorem trim_blanks_append {before : List Char} (h : ∀ c ∈ before, isBlank c = true)
    (line : List Char) : trim (before ++ line) = trim line := by
  rw [trim, List.dropWhile_append_of_pos h]
  rfl

theorem isBlank_iff {c : Char} : isBlank c = true ↔ c ∈ blanks := by
  simp [isBlank, blanks, or_assoc]

theorem trimsTo_trim (line : List Char) : TrimsTo line (trim line) := by
  let rest := line.dropWhile isBlank
  have htrim : trim line = rest.rdropWhile isBlank := rfl
  refine ⟨⟨line.takeWhile isBlank, rest.rtakeWhile isBlank, ?_, ?_⟩, ?_, ?_⟩
  · rw [htrim, List.append_assoc, List.rdropWhile_append_rtakeWhile,
      List.takeWhile_append_dropWhile]
  · intro c hc
    apply isBlank_iff.mp
    rcases List.mem_append.mp hc with hc | hc
    · exact List.mem_takeWhile_imp hc
    · exact List.mem_rtakeWhile_imp hc
  · intro c hc
    have hrest : rest.head? = some c := by
      obtain ⟨after, hafter⟩ := List.rdropWhile_prefix isBlank rest
      rw [← hafter, ← htrim, List.head?_append, Option.mem_def.mp hc]
      rfl
    have hblank := List.head?_dropWhile_not isBlank line
    rw [hrest] at hblank
    rw [← isBlank_iff, hblank]
    exact Bool.false_ne_true
  · intro c hc
    rw [htrim] at hc
    have hne : rest.rdropWhile isBlank ≠ [] := by
      intro hnil
      simp [hnil] at hc
    rw [List.getLast?_eq_some_getLast hne, Option.mem_some_iff] at hc
    rw [← isBlank_iff, ← hc]
    exact List.rdropWhile_last_not isBlank rest hne

theorem trimsTo_iff : TrimsTo line inner ↔ trim line = inner := by
  constructor
  · rintro ⟨⟨before, after, rfl, hblank⟩, hhead, hlast⟩
    have hbefore : ∀ c ∈ before, isBlank c = true := fun c hc =>
      isBlank_iff.mpr (hblank c (List.mem_append_left after hc))
    have hafter : ∀ c ∈ after, isBlank c = true := fun c hc =>
      isBlank_iff.mpr (hblank c (List.mem_append_right before hc))
    have hkeep : inner.dropWhile isBlank = inner := by
      cases inner with
      | nil => rfl
      | cons c cs => exact List.dropWhile_cons_of_neg (mt isBlank_iff.mp (hhead c rfl))
    rw [trim_append_blanks hafter, trim_blanks_append hbefore]
    change (inner.dropWhile isBlank).rdropWhile isBlank = inner
    rw [hkeep, List.rdropWhile_eq_self_iff]
    intro hne
    exact mt isBlank_iff.mp (hlast _ (List.getLast?_eq_some_getLast hne))
  · rintro rfl
    exact trimsTo_trim line

theorem trimmedLines_iff {trimmed : List (List Char)} :
    TrimmedLines text trimmed ↔ trimmed = (lines text).map trim := by
  have htrims : TrimsTo = fun line inner => trim line = inner := by
    funext line inner
    exact propext trimsTo_iff
  simp only [TrimmedLines, splitsInto_iff, exists_eq_left', htrims]
  rw [← List.forall₂_map_left_iff (f := trim) (R := Eq), List.forall₂_eq_eq_eq, eq_comm]

theorem trim_lines_flatMap {entries : List (List Char)} (h : ∀ entry ∈ entries, '\n' ∉ entry) :
    (lines (entries.flatMap (· ++ ['\n']))).map trim = entries.map trim := by
  induction entries with
  | nil => rfl
  | cons entry entries ih =>
      have hline := h entry (by simp)
      rw [List.flatMap_cons, List.append_assoc, List.singleton_append, lines_line hline,
        List.map_cons, trim_chopped, ih fun e he => h e (by simp [he]), List.map_cons]

/-- Lines that are joined come apart again, up to trimming, unless the last of them is empty. -/
theorem trim_lines_intercalate {entries : List (List Char)} (h : ∀ entry ∈ entries, '\n' ∉ entry)
    (hlast : ∀ entry ∈ entries.getLast?, entry ≠ []) :
    (lines (['\n'].intercalate entries)).map trim = entries.map trim := by
  induction entries with
  | nil => simp [lines, linesFrom]
  | cons entry entries ih =>
      have hline := h entry (by simp)
      cases entries with
      | nil => rw [List.intercalate_singleton, lines_last hline, if_neg (hlast entry rfl)]
      | cons next others =>
          have hrest := ih (fun e he => h e (by simp [he])) hlast
          rw [List.intercalate_cons_cons, List.append_assoc, List.singleton_append,
            lines_line hline, List.map_cons, hrest, trim_chopped]
          rfl

end ChoiceGrammar.Corpus
