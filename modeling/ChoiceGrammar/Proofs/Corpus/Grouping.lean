import ChoiceGrammar.Proofs.Canonical.Legible
import ChoiceGrammar.Proofs.Corpus.Entries
import ChoiceGrammar.Proofs.Corpus.Lines

/-!
# Corpora and groups

A corpus of several entries is one expression to a line. The same entries between bars and brackets
are one group. The two have the same branches: a branch is parsed alike whether its line or a bar
ends it, one level further down. They differ in the branches that come to nothing, which a corpus
keeps and a group loses.
-/

namespace ChoiceGrammar

open Markup

namespace Markup

theorem Item.chars_group (first : List Item) (rest : List (List Item)) :
    (Item.group first rest).chars =
      '<' :: (['|'].intercalate ((first :: rest).map sequenceChars) ++ ['>']) := by
  induction rest generalizing first with
  | nil => simp [Item.chars, barredChars]
  | cons branch rest ih =>
      have hrest := (List.cons.inj (ih branch)).2
      simp only [Item.chars, barredChars] at hrest ⊢
      simp [hrest]

theorem toList_sequenceOf {items : List Item} (h : SequenceWellFormed items) :
    (sequenceOf (survivingItems items)).toList = [collapse items].filter (· ≠ .empty) := by
  cases hs : sequenceOf (survivingItems items) with
  | none => simp [collapse, hs]
  | some e =>
      have hsurvivor := survivor_sequenceOf (survivor_sequence items h) hs
      have hne : e ≠ .empty := by
        rintro rfl
        exact hsurvivor.chars_ne_nil rfl
      simp [collapse, hs, hne]

theorem survivingBranches_eq_filter {branches : List (List Item)}
    (h : BranchesWellFormed branches) :
    survivingBranches branches = (branches.map collapse).filter (· ≠ .empty) := by
  induction branches with
  | nil => rfl
  | cons branch branches ih =>
      rw [survivingBranches, toList_sequenceOf h.1, ih h.2, ← List.filter_append]
      rfl

theorem collapse_group {first : List Item} {rest : List (List Item)}
    (h : BranchesWellFormed (first :: rest)) :
    collapse [.group first rest] =
      (alternationOf (((first :: rest).map collapse).filter (· ≠ .empty))).getD .empty := by
  have hsurviving := survivingBranches_eq_filter h
  rw [survivingBranches] at hsurviving
  rw [collapse, survivingItems, survivingItems, Item.collapse, hsurviving, List.append_nil]
  cases alternationOf (((first :: rest).map collapse).filter (· ≠ .empty)) <;> rfl

/-- Texts that are read one by one have derivations, which are the branches of a group. -/
theorem exists_branches {limit : Nat} {texts : List (List Char)} {es : List Expr}
    (h : List.Forall₂ (fun text e => read limit text = .ok e) texts es) :
    ∃ branches, branches.map sequenceChars = texts ∧ branches.map collapse = es ∧
      BranchesWellFormed branches ∧ branchesNesting branches ≤ limit := by
  induction h with
  | nil => exact ⟨[], rfl, rfl, trivial, Nat.zero_le limit⟩
  | cons hread _ ih =>
      obtain ⟨items, hd, hn, rfl⟩ := derives_of_read hread
      obtain ⟨branches, rfl, rfl, hw, hnesting⟩ := ih
      refine ⟨items :: branches, ?_, rfl, ⟨hd.wellFormed, hw⟩, Nat.max_le.mpr ⟨hn, hnesting⟩⟩
      rw [List.map_cons, hd.chars_eq]

theorem read_group {limit : Nat} {texts : List (List Char)} {es : List Expr}
    (h : List.Forall₂ (fun text e => read limit text = .ok e) texts es) (hne : texts ≠ []) :
    read (limit + 1) ('<' :: (['|'].intercalate texts ++ ['>'])) =
      .ok ((alternationOf (es.filter (· ≠ .empty))).getD .empty) := by
  obtain ⟨branches, rfl, rfl, hw, hn⟩ := exists_branches h
  cases branches with
  | nil => exact absurd rfl hne
  | cons first rest =>
      have hderives : Derives [.group first rest]
          ('<' :: (['|'].intercalate ((first :: rest).map sequenceChars) ++ ['>'])) := by
        refine ⟨⟨hw, trivial, trivial⟩, ?_⟩
        rw [sequenceChars, sequenceChars, List.append_nil, Item.chars_group]
      have hnesting : sequenceNesting [.group first rest] ≤ limit + 1 := by
        simp only [branchesNesting] at hn
        simp only [sequenceNesting, Item.nesting]
        omega
      rw [read_of_derives hderives hnesting, collapse_group hw]

end Markup

namespace Corpus

variable {config : CorpusConfig}

/-- A line that is an entry as it stands: unbroken, with no blank at its ends, not empty and no
comment. -/
structure IsEntry (config : CorpusConfig) (line : List Char) : Prop where
  unbroken : '\n' ∉ line
  trimmed : trim line = line
  nonempty : line ≠ []
  uncommented : line.head? ≠ some config.commentMark

theorem IsEntry.isKept {line : List Char} (h : IsEntry config line) :
    isKept config line = true := by
  simp [Corpus.isKept, h.nonempty, h.uncommented]

theorem filter_trim_lines_intercalate {entries : List (List Char)}
    (h : ∀ entry ∈ entries, IsEntry config entry) :
    ((lines (['\n'].intercalate entries)).map trim).filter (isKept config) = entries := by
  have htrim : entries.map trim = entries := by
    conv_rhs => rw [← List.map_id entries]
    exact List.map_congr_left fun entry he => (h entry he).trimmed
  rw [trim_lines_intercalate (fun entry he => (h entry he).unbroken)
    (fun entry he => (h entry (List.mem_of_getLast? he)).nonempty), htrim]
  exact List.filter_eq_self.mpr fun entry he => (h entry he).isKept

/-- Entries that are parsed on lines of their own are parsed alike as the branches of one group, one
level further down. The corpus has all of them for its branches. The group has those that are not
empty, and is collapsed if there are fewer than two. -/
theorem parse_lines_and_group {entries : List String} {es : List Expr} (hne : entries ≠ [])
    (hentries : ∀ entry ∈ entries, IsEntry config entry.toList)
    (hparse : List.Forall₂
      (fun entry e => Expr.parseWithin config.maxDepth.toNat entry = .ok e) entries es) :
    let group := "<" ++ "|".intercalate entries ++ ">"
    ∃ first rest, es = first :: rest ∧
      parse config ("\n".intercalate entries) = .ok (.alt first rest) ∧
      Expr.parseWithin (config.maxDepth.toNat + 1) group =
        .ok ((alternationOf (es.filter (· ≠ .empty))).getD .empty) ∧
      (.empty ∉ es → 2 ≤ es.length →
        Expr.parseWithin (config.maxDepth.toNat + 1) group = .ok (.alt first rest)) := by
  intro group
  have hchars : List.Forall₂ (fun text e => Markup.read config.maxDepth.toNat text = .ok e)
      (entries.map String.toList) es := List.forall₂_map_left_iff.mpr hparse
  have hentries' : ∀ text ∈ entries.map String.toList, IsEntry config text := by
    simpa using hentries
  have hgroup : Expr.parseWithin (config.maxDepth.toNat + 1) group =
      .ok ((alternationOf (es.filter (· ≠ .empty))).getD .empty) := by
    have hread := read_group hchars (by simpa using hne)
    have htext : group.toList =
        '<' :: (['|'].intercalate (entries.map String.toList) ++ ['>']) := by
      simp [group, String.toList_intercalate]
    rw [← htext] at hread
    exact hread
  have hcorpus : branches config 1 (lines ("\n".intercalate entries).toList) = .ok es := by
    have htext : ("\n".intercalate entries).toList =
        ['\n'].intercalate (entries.map String.toList) := by
      simp [String.toList_intercalate]
    rw [branches_eq_ok_iff, htext, filter_trim_lines_intercalate hentries']
    exact hchars
  cases es with
  | nil => exact absurd (List.forall₂_nil_right_iff.mp hparse) hne
  | cons first rest =>
      refine ⟨first, rest, rfl, ?_, hgroup, ?_⟩
      · rw [parse, hcorpus]
        rfl
      · intro hempty hlength
        have hall : (first :: rest).filter (· ≠ .empty) = first :: rest := by
          apply List.filter_eq_self.mpr
          intro e he
          simpa using fun h : e = .empty => hempty (h ▸ he)
        rw [hgroup, hall]
        cases rest with
        | nil => simp at hlength
        | cons second rest => rfl

/-- The second of three entries comes to nothing: it is a branch of the corpus and none of the
group. Without it the two trees are the same. -/
theorem parse_lines_and_group_empty :
    let config : CorpusConfig := ⟨'#', false, 1⟩
    let choice : Expr := .seq [.alt (.term "a") [.term "b"], .term "c"]
    parse config "<a|b>c\n<|>\nd" = .ok (.alt choice [.empty, .term "d"]) ∧
      Expr.parseWithin 2 "<<a|b>c|<|>|d>" = .ok (.alt choice [.term "d"]) ∧
      parse config "<a|b>c\nd" = .ok (.alt choice [.term "d"]) ∧
      Expr.parseWithin 2 "<<a|b>c|d>" = .ok (.alt choice [.term "d"]) := by
  intro config choice
  have hchoice : IsEntry config "<a|b>c".toList := ⟨by decide, by decide, by decide, by decide⟩
  have hnothing : IsEntry config "<|>".toList := ⟨by decide, by decide, by decide, by decide⟩
  have hd : IsEntry config "d".toList := ⟨by decide, by decide, by decide, by decide⟩
  have hentries : ∀ entry ∈ ["<a|b>c", "<|>", "d"], IsEntry config entry.toList := by
    simp only [List.forall_mem_cons]
    exact ⟨hchoice, hnothing, hd, by simp⟩
  have hothers : ∀ entry ∈ ["<a|b>c", "d"], IsEntry config entry.toList := by
    simp only [List.forall_mem_cons]
    exact ⟨hchoice, hd, by simp⟩
  have hparse : List.Forall₂
      (fun entry e => Expr.parseWithin config.maxDepth.toNat entry = .ok e)
      ["<a|b>c", "<|>", "d"] [choice, .empty, .term "d"] :=
    .cons (by decide) (.cons (by decide) (.cons (by decide) .nil))
  have hparse' : List.Forall₂
      (fun entry e => Expr.parseWithin config.maxDepth.toNat entry = .ok e)
      ["<a|b>c", "d"] [choice, .term "d"] :=
    .cons (by decide) (.cons (by decide) .nil)
  obtain ⟨first, rest, hes, hcorpus, hgroup, -⟩ := parse_lines_and_group (by simp) hentries hparse
  obtain ⟨rfl, rfl⟩ := List.cons.inj hes
  obtain ⟨first, rest, hes, hcorpus', -, hgroup'⟩ :=
    parse_lines_and_group (by simp) hothers hparse'
  obtain ⟨rfl, rfl⟩ := List.cons.inj hes
  exact ⟨hcorpus, hgroup, hcorpus', hgroup' (by decide) (by decide)⟩

end Corpus

end ChoiceGrammar
