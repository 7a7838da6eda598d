import ChoiceGrammar.Proofs.Canonical.Literals
import ChoiceGrammar.Proofs.Canonical.Striking
import ChoiceGrammar.Proofs.Expansion.Outputs
import ChoiceGrammar.Proofs.Markup.Uniqueness

/-!
# Pruning derivations

A derivation is pruned by taking the branches without a literal character from every group that has
others too; a group without any literal character stands for the empty text. The collapse drops
branches by what is left of them, not by their characters. Still it has the texts of the pruned
derivation as that is written, each of them from as many choices.
-/

namespace ChoiceGrammar

namespace Markup

/-- Some character of the sequence is a literal. -/
def hasLiteral (items : List Item) : Bool := (sequenceChars items).any fun c => !isDelimiter c

/-- The group of these branches. Without any it stands for the empty text. -/
def groupOf : List (List Item) → Item
  | [] => .group [] []
  | branch :: branches => .group branch branches

mutual
/-- The item without the branches, at any level, that hold no literal. -/
def Item.pruned : Item → Item
  | .run text => .run text
  | .group first rest =>
      groupOf ((if hasLiteral first then [prunedItems first] else []) ++ prunedBranches rest)

def prunedItems : List Item → List Item
  | [] => []
  | item :: items => item.pruned :: prunedItems items

def prunedBranches : List (List Item) → List (List Item)
  | [] => []
  | branch :: branches =>
      (if hasLiteral branch then [prunedItems branch] else []) ++ prunedBranches branches
end

mutual
/-- The expression that an item stands for with nothing simplified. -/
def Item.asWritten : Item → Expr
  | .run text => .term text
  | .group first rest => .alt (.seq (itemsAsWritten first)) (branchesAsWritten rest)

def itemsAsWritten : List Item → List Expr
  | [] => []
  | item :: items => item.asWritten :: itemsAsWritten items

def branchesAsWritten : List (List Item) → List Expr
  | [] => []
  | branch :: branches => .seq (itemsAsWritten branch) :: branchesAsWritten branches
end

/-- The expression that a derivation stands for with nothing simplified. -/
def asWritten (items : List Item) : Expr := .seq (itemsAsWritten items)

theorem hasLiteral_cons (item : Item) (items : List Item) :
    hasLiteral (item :: items) = (hasLiteral [item] || hasLiteral items) := by
  simp [hasLiteral, sequenceChars]

mutual
theorem collapse_eq_none (item : Item) (hw : item.WellFormed) (h : hasLiteral [item] = false) :
    item.collapse = none := by
  cases item with
  | run text =>
      obtain ⟨c, cs, hl, hc⟩ := hw.run_cons
      simp [hasLiteral, sequenceChars, Item.chars, hl, hc] at h
  | group first rest =>
      simp only [hasLiteral, sequenceChars, Item.chars, List.append_nil, List.any_cons,
        List.any_append, Bool.or_eq_false_iff] at h
      obtain ⟨-, hfirst, hrest⟩ := h
      have hnone : survivingItems first = [] := survivingItems_eq_nil first hw.1 hfirst
      have hothers : survivingBranches rest = [] := survivingBranches_eq_nil rest hw.2 hrest
      rw [Item.collapse, hnone, hothers]
      rfl

theorem survivingItems_eq_nil (items : List Item) (hw : SequenceWellFormed items)
    (h : hasLiteral items = false) : survivingItems items = [] := by
  cases items with
  | nil => rfl
  | cons item items =>
      rw [hasLiteral_cons, Bool.or_eq_false_iff] at h
      rw [survivingItems, collapse_eq_none item hw.1 h.1, survivingItems_eq_nil items hw.2.2 h.2]
      rfl

theorem survivingBranches_eq_nil (branches : List (List Item)) (hw : BranchesWellFormed branches)
    (h : (barredChars branches).any (fun c => !isDelimiter c) = false) :
    survivingBranches branches = [] := by
  cases branches with
  | nil => rfl
  | cons branch branches =>
      simp only [barredChars, List.any_cons, List.any_append, Bool.or_eq_false_iff] at h
      obtain ⟨-, hbranch, hbranches⟩ := h
      have hnone : survivingItems branch = [] := survivingItems_eq_nil branch hw.1 hbranch
      rw [survivingBranches, hnone, survivingBranches_eq_nil branches hw.2 hbranches]
      rfl
end

theorem survivingItems_ne_nil {items : List Item} (h : hasLiteral items = true) :
    survivingItems items ≠ [] := by
  intro hnil
  have hkept := (strikes_sequence items).filter_eq
  rw [hnil, Expr.charsConcat, List.filter_nil] at hkept
  obtain ⟨c, hc, hliteral⟩ := List.any_eq_true.mp h
  have hmem : c ∈ (sequenceChars items).filter fun c => !isDelimiter c :=
    List.mem_filter.mpr ⟨hc, hliteral⟩
  rw [← hkept] at hmem
  simp at hmem

/-- Expressions and branches that have, one by one, the same texts. -/
abbrev SameTexts (es : List Expr) (branches : List (List Item)) : Prop :=
  List.Forall₂ (fun e branch => e.texts = (asWritten branch).texts) es branches

theorem SameTexts.flatMap {es : List Expr} {branches : List (List Item)}
    (h : SameTexts es branches) :
    es.flatMap Expr.texts = (branchesAsWritten branches).flatMap Expr.texts := by
  induction h with
  | nil => rfl
  | cons hfirst _ ih =>
      rw [branchesAsWritten, List.flatMap_cons, List.flatMap_cons, hfirst, ih]
      rfl

theorem SameTexts.group {es : List Expr} {branches : List (List Item)}
    (h : SameTexts es branches) :
    Expr.textsAll (alternationOf es).toList = (groupOf branches).asWritten.texts := by
  have hall := h.flatMap
  cases h with
  | nil => rfl
  | @cons e branch es branches _ _ =>
      have hgroup : (groupOf (branch :: branches)).asWritten.texts =
          (branchesAsWritten (branch :: branches)).flatMap Expr.texts := Expr.texts_alt _ _
      rw [hgroup, ← hall]
      cases es with
      | nil => simp [alternationOf, joined]
      | cons f es => simp [alternationOf, joined, Expr.texts_alt]

theorem textsAll_sequenceOf (es : List Expr) :
    Expr.textsAll (sequenceOf es).toList = Expr.textsAll es := by
  rcases es with _ | ⟨e₁, _ | ⟨e₂, es⟩⟩
  · rfl
  · rfl
  · simp [sequenceOf, joined, Expr.texts_seq]

theorem sameTexts_branch {branch : List Item} (hw : SequenceWellFormed branch)
    (h : Expr.textsAll (survivingItems branch) =
      Expr.textsAll (itemsAsWritten (prunedItems branch))) :
    SameTexts (sequenceOf (survivingItems branch)).toList
      (if hasLiteral branch then [prunedItems branch] else []) := by
  cases hl : hasLiteral branch with
  | false =>
      rw [survivingItems_eq_nil branch hw hl]
      exact .nil
  | true =>
      have hne := survivingItems_ne_nil hl
      have hall := textsAll_sequenceOf (survivingItems branch)
      cases hs : sequenceOf (survivingItems branch) with
      | none => exact absurd (joined_eq_none_iff.mp hs) hne
      | some e =>
          refine .cons ?_ .nil
          rw [hs, Option.toList_some, Expr.textsAll_singleton] at hall
          rw [hall, h, asWritten, Expr.texts_seq]

mutual
theorem texts_item (item : Item) (hw : item.WellFormed) :
    Expr.textsAll item.collapse.toList = item.pruned.asWritten.texts := by
  cases item with
  | run text => exact Expr.textsAll_singleton (.term text)
  | group first rest =>
      have hfirst := sameTexts_branch hw.1 (texts_sequence first hw.1)
      have hrest := sameTexts_branches rest hw.2
      rw [Item.collapse, Item.pruned]
      exact SameTexts.group (List.rel_append hfirst hrest)

theorem texts_sequence (items : List Item) (hw : SequenceWellFormed items) :
    Expr.textsAll (survivingItems items) = Expr.textsAll (itemsAsWritten (prunedItems items)) := by
  cases items with
  | nil => rfl
  | cons item items =>
      rw [survivingItems, Expr.textsAll_append, texts_item item hw.1,
        texts_sequence items hw.2.2, prunedItems, itemsAsWritten, Expr.textsAll_cons]

theorem sameTexts_branches (branches : List (List Item)) (hw : BranchesWellFormed branches) :
    SameTexts (survivingBranches branches) (prunedBranches branches) := by
  cases branches with
  | nil => exact .nil
  | cons branch branches =>
      have hbranch := sameTexts_branch hw.1 (texts_sequence branch hw.1)
      have hbranches := sameTexts_branches branches hw.2
      exact List.rel_append hbranch hbranches
end

/-- The collapse has the texts of the pruned derivation, one for each way to choose. -/
theorem texts_collapse {items : List Item} (hw : SequenceWellFormed items) :
    (collapse items).texts = (asWritten (prunedItems items)).texts := by
  have hall := textsAll_sequenceOf (survivingItems items)
  rw [asWritten, Expr.texts_seq, ← texts_sequence items hw, ← hall, collapse]
  cases sequenceOf (survivingItems items) with
  | none => rfl
  | some e => exact (Expr.textsAll_singleton e).symm

/-- Parsing changes the texts that a derivation stands for by pruning it, and in no other way: the
outputs are the texts of the pruned derivation, the count is the number of its choices as far as it
goes, and every output consists of literals of the text in their order. -/
theorem outputs_of_parse {limit : Nat} {text : String} {e : Expr} (short : text.length < 2 ^ 64)
    (h : Expr.parseWithin limit text = .ok e) :
    ∃ items, Derives items text.toList ∧ (∀ others, Derives others text.toList → others = items) ∧
      e.outputs = (asWritten (prunedItems items)).language ∧
        e.count.toNat = min (2 ^ 64 - 1) (asWritten (prunedItems items)).routes.length ∧
          ∀ output ∈ e.outputs, output.toList.Sublist text.toList ∧
            ∀ c ∈ output.toList, isDelimiter c = false := by
  obtain ⟨hlegible, -⟩ := Expr.legible_of_parseChars h
  obtain ⟨items, hd, -, rfl⟩ := derives_of_read h
  have hstrikes : Strikes text.toList (collapse items).chars := hd.chars_eq ▸ strikes_collapse items
  have hnarrow : (collapse items).Narrow := by
    apply Expr.narrow_of_length_chars
    exact Nat.lt_of_le_of_lt hstrikes.sublist.length_le (by rwa [String.length_toList])
  have htexts := texts_collapse hd.wellFormed
  refine ⟨items, hd, fun others ho => ho.unique hd, ?_, ?_, ?_⟩
  · rw [Expr.outputs_eq_language hnarrow, Expr.language_eq_of_texts_eq htexts]
  · rw [Expr.count_toNat _ hnarrow, Expr.length_routes, ← Expr.length_texts, htexts,
      Expr.length_texts, Nat.min_comm]
  · intro output houtput
    rw [Expr.outputs_eq_language hnarrow] at houtput
    have hliterals := Expr.language_sublist_literals hlegible houtput
    refine ⟨hliterals.trans (List.filter_sublist.trans hstrikes.sublist), ?_⟩
    intro c hc
    have hmem := List.mem_filter.mp (hliterals.subset hc)
    simpa using hmem.2

/-- The branches of delimiters alone are gone, at every level, and the group that has nothing else
stands for the empty text. -/
theorem outputs_of_parse_nested :
    let text := "<|a|<b|<>|c<|>>>!<|>"
    let e := Expr.seq [.alt (.term "a") [.alt (.term "b") [.term "c"]], .term "!"]
    let pruned : List Item :=
      [.group [.run "a"] [[.group [.run "b"] [[.run "c", .group [] []]]]], .run "!", .group [] []]
    text.length < 2 ^ 64 ∧ Expr.parseWithin 3 text = .ok e ∧ e.count = 3 ∧
      (asWritten pruned).routes.length = 3 ∧ e.outputs = (asWritten pruned).language := by
  intro text e pruned
  have hshort : text.length < 2 ^ 64 := by decide
  have hparse : Expr.parseWithin 3 text = .ok e := by decide
  let items : List Item :=
    [.group [] [[.run "a"], [.group [.run "b"] [[.group [] []], [.run "c", .group [] [[]]]]]],
      .run "!", .group [] [[]]]
  have hderives : Derives items text.toList := by
    refine ⟨?_, by decide⟩
    simp [items, SequenceWellFormed, BranchesWellFormed, Item.WellFormed, Separated, isDelimiter]
  obtain ⟨others, -, hunique, houtputs, -, -⟩ := outputs_of_parse hshort hparse
  have hpruned : prunedItems others = pruned := by
    rw [← hunique items hderives]
    rfl
  rw [hpruned] at houtputs
  exact ⟨hshort, hparse, by decide, by decide, houtputs⟩

end Markup

end ChoiceGrammar
