import ChoiceGrammar.Proofs.Canonical.Alike
import ChoiceGrammar.Proofs.Canonical.Legible

/-!
# Reading the canonical text back

The canonical text of a tree has a derivation that follows the tree, with adjacent literals joined.
For a legible tree the collapse of that derivation is alike to the tree. It need not be the same
tree: sequences are flattened, and items without text are gone.
-/

namespace ChoiceGrammar

open Markup

namespace Markup

theorem alike_sequenceOf (es : List Expr) : Expr.Alike (sequenceOf es).toList es := by
  rcases es with _ | ⟨e₁, _ | ⟨e₂, es⟩⟩
  · exact .refl []
  · exact .refl [e₁]
  · have hflat := Expr.Alike.flatten (e₁ :: e₂ :: es) []
    rwa [List.append_nil] at hflat

theorem alike_collapse (items : List Item) :
    Expr.Alike [collapse items] (survivingItems items) := by
  have hs := alike_sequenceOf (survivingItems items)
  rw [collapse]
  cases hc : sequenceOf (survivingItems items) with
  | none =>
      rw [hc] at hs
      exact (Expr.Alike.drop_empty []).trans hs
  | some e =>
      rw [hc] at hs
      exact hs

theorem alike_pushLiteral (text : String) (items : List Item) :
    Expr.Alike (survivingItems (pushLiteral text items)) (.term text :: survivingItems items) := by
  unfold pushLiteral
  split
  · next run items => exact .join text run (survivingItems items)
  · split
    · next h =>
        rw [h]
        exact (Expr.Alike.drop_blank _).symm
    · exact .refl _

end Markup

namespace Expr

mutual
/-- Items for the canonical text of an expression, with more items behind. -/
def itemsOnto : Expr → List Item → List Item
  | term text, items => pushLiteral text items
  | empty, items => items
  | seq es, items => itemsOntoAll es items
  | alt first rest, items => .group (first.itemsOnto []) (itemsOfBranches rest) :: items

def itemsOntoAll : List Expr → List Item → List Item
  | [], items => items
  | e :: es, items => e.itemsOnto (itemsOntoAll es items)

def itemsOfBranches : List Expr → List (List Item)
  | [] => []
  | e :: es => e.itemsOnto [] :: itemsOfBranches es
end

mutual
theorem sequenceChars_itemsOnto (e : Expr) (items : List Item) :
    sequenceChars (e.itemsOnto items) = e.chars ++ sequenceChars items := by
  cases e with
  | term text => exact sequenceChars_pushLiteral text items
  | empty => rfl
  | seq es => exact sequenceChars_itemsOntoAll es items
  | alt first rest =>
      have hfirst := sequenceChars_itemsOnto first []
      have hrest := barredChars_itemsOfBranches rest
      simp [itemsOnto, sequenceChars, Item.chars, chars, hfirst, hrest]

theorem sequenceChars_itemsOntoAll (es : List Expr) (items : List Item) :
    sequenceChars (itemsOntoAll es items) = charsConcat es ++ sequenceChars items := by
  cases es with
  | nil => rfl
  | cons e es =>
      rw [itemsOntoAll, sequenceChars_itemsOnto, sequenceChars_itemsOntoAll, charsConcat,
        List.append_assoc]

theorem barredChars_itemsOfBranches (es : List Expr) :
    barredChars (itemsOfBranches es) = charsBarred es := by
  cases es with
  | nil => rfl
  | cons e es =>
      have he := sequenceChars_itemsOnto e []
      have hes := barredChars_itemsOfBranches es
      simp [itemsOfBranches, barredChars, charsBarred, sequenceChars, he, hes]
end

mutual
theorem sequenceNesting_itemsOnto (e : Expr) (items : List Item) :
    sequenceNesting (e.itemsOnto items) = max e.nesting (sequenceNesting items) := by
  cases e with
  | term text => simp [itemsOnto, sequenceNesting_pushLiteral, nesting]
  | empty => simp [itemsOnto, nesting]
  | seq es => exact sequenceNesting_itemsOntoAll es items
  | alt first rest =>
      have hfirst := sequenceNesting_itemsOnto first []
      have hrest := branchesNesting_itemsOfBranches rest
      simp [itemsOnto, sequenceNesting, Item.nesting, nesting, hfirst, hrest]

theorem sequenceNesting_itemsOntoAll (es : List Expr) (items : List Item) :
    sequenceNesting (itemsOntoAll es items) = max (nestingMax es) (sequenceNesting items) := by
  cases es with
  | nil => simp [itemsOntoAll, nestingMax]
  | cons e es =>
      rw [itemsOntoAll, sequenceNesting_itemsOnto, sequenceNesting_itemsOntoAll, nestingMax,
        Nat.max_assoc]

theorem branchesNesting_itemsOfBranches (es : List Expr) :
    branchesNesting (itemsOfBranches es) = nestingMax es := by
  cases es with
  | nil => rfl
  | cons e es =>
      have he := sequenceNesting_itemsOnto e []
      have hes := branchesNesting_itemsOfBranches es
      simp [itemsOfBranches, branchesNesting, sequenceNesting, nestingMax, he, hes]
end

mutual
theorem sequenceWellFormed_itemsOnto (e : Expr) (h : e.Legible) {items : List Item}
    (hi : SequenceWellFormed items) : SequenceWellFormed (e.itemsOnto items) := by
  cases e with
  | term text => exact sequenceWellFormed_pushLiteral h hi
  | empty => exact hi
  | seq es => exact sequenceWellFormed_itemsOntoAll es h hi
  | alt first rest =>
      obtain ⟨-, -, hfirst, hrest⟩ := h
      have hitems : SequenceWellFormed (first.itemsOnto []) :=
        sequenceWellFormed_itemsOnto first hfirst trivial
      have hbranches := branchesWellFormed_itemsOfBranches rest hrest
      exact ⟨⟨hitems, hbranches⟩, trivial, hi⟩

theorem sequenceWellFormed_itemsOntoAll (es : List Expr) (h : AllLegible es) {items : List Item}
    (hi : SequenceWellFormed items) : SequenceWellFormed (itemsOntoAll es items) := by
  cases es with
  | nil => exact hi
  | cons e es =>
      have hes := sequenceWellFormed_itemsOntoAll es h.2 hi
      exact sequenceWellFormed_itemsOnto e h.1 hes

theorem branchesWellFormed_itemsOfBranches (es : List Expr) (h : AllLegible es) :
    BranchesWellFormed (itemsOfBranches es) := by
  cases es with
  | nil => trivial
  | cons e es =>
      have he : SequenceWellFormed (e.itemsOnto []) := sequenceWellFormed_itemsOnto e h.1 trivial
      exact ⟨he, branchesWellFormed_itemsOfBranches es h.2⟩
end

theorem branch_survives {e : Expr} (htext : e.encode ≠ "")
    (h : Alike (survivingItems (e.itemsOnto [])) [e]) :
    ∃ e', (sequenceOf (survivingItems (e.itemsOnto []))).toList = [e'] ∧ Alike [e'] [e] := by
  have hs := (alike_sequenceOf (survivingItems (e.itemsOnto []))).trans h
  cases hc : sequenceOf (survivingItems (e.itemsOnto [])) with
  | none =>
      rw [hc] at hs
      have hchars : e.chars = [] := by simpa [charsConcat] using hs.chars.symm
      exact absurd hchars (encode_ne_empty.mp htext)
  | some e' =>
      rw [hc] at hs
      exact ⟨e', rfl, hs⟩

mutual
theorem alike_itemsOnto (e : Expr) (h : e.Legible) (items : List Item) :
    Alike (survivingItems (e.itemsOnto items)) (e :: survivingItems items) := by
  cases e with
  | term text => exact alike_pushLiteral text items
  | empty => exact (Alike.drop_empty _).symm
  | seq es =>
      have hflat := Alike.flatten es (survivingItems items)
      exact (alike_itemsOntoAll es h items).trans hflat.symm
  | alt first rest =>
      obtain ⟨hne, htext, hfirst, hrest⟩ := h
      obtain ⟨first', hf, hfa⟩ :=
        branch_survives (htext first (by simp)) (alike_itemsOnto first hfirst [])
      have hra := alike_itemsOfBranches rest (fun e he => htext e (by simp [he])) hrest
      cases hr : survivingBranches (itemsOfBranches rest) with
      | nil =>
          rw [hr] at hra
          cases hra
          exact absurd rfl hne
      | cons second' rest' =>
          rw [hr] at hra
          have hgroup : survivingItems (itemsOnto (alt first rest) items) =
              alt first' (second' :: rest') :: survivingItems items := by
            rw [itemsOnto, survivingItems, Item.collapse, hf, hr]
            rfl
          rw [hgroup]
          exact (hfa.alternation hra).append (.refl _)

theorem alike_itemsOntoAll (es : List Expr) (h : AllLegible es) (items : List Item) :
    Alike (survivingItems (itemsOntoAll es items)) (es ++ survivingItems items) := by
  cases es with
  | nil => exact .refl _
  | cons e es =>
      have he := alike_itemsOnto e h.1 (itemsOntoAll es items)
      have hes := alike_itemsOntoAll es h.2 items
      exact he.trans (hes.cons e)

theorem alike_itemsOfBranches (es : List Expr) (htext : ∀ e ∈ es, e.encode ≠ "")
    (h : AllLegible es) : BranchesAlike (survivingBranches (itemsOfBranches es)) es := by
  cases es with
  | nil => exact .nil
  | cons e es =>
      obtain ⟨e', he, hea⟩ := branch_survives (htext e (by simp)) (alike_itemsOnto e h.1 [])
      have hes := alike_itemsOfBranches es (fun e he => htext e (by simp [he])) h.2
      rw [itemsOfBranches, survivingBranches, he]
      exact .cons hea hes
end

/-- The canonical text of a legible tree has a derivation that follows the tree. -/
theorem derives_itemsOnto {e : Expr} (h : e.Legible) :
    Derives (e.itemsOnto []) e.encode.toList := by
  refine ⟨sequenceWellFormed_itemsOnto e h trivial, ?_⟩
  rw [sequenceChars_itemsOnto, toList_encode, sequenceChars, List.append_nil]

theorem parseWithin_encode_eq {limit : Nat} {e : Expr} (h : e.Legible) (hn : e.nesting ≤ limit) :
    parseWithin limit e.encode = .ok (collapse (e.itemsOnto [])) := by
  apply read_of_derives (derives_itemsOnto h)
  rw [sequenceNesting_itemsOnto]
  exact Nat.max_le.mpr ⟨hn, Nat.zero_le limit⟩

theorem parseWithin_encode {limit : Nat} {e : Expr} (h : e.Legible) (hn : e.nesting ≤ limit) :
    ∃ e', parseWithin limit e.encode = .ok e' ∧ Alike [e'] [e] :=
  ⟨_, parseWithin_encode_eq h hn, (alike_collapse _).trans (alike_itemsOnto e h [])⟩

/-- The canonical text of a legible tree reads back at any limit that is not below the nesting of
the tree, as a tree with the same count, the same longest output, and from every source of words
the same text and the same words read. Parsed trees are legible, and corpora of two or more
branches with text. -/
theorem rereading_keeps_behaviour :
    (∀ (limit : Nat) (e : Expr), e.Legible → e.nesting ≤ limit →
      ∃ e', parseWithin limit e.encode = .ok e' ∧ e'.count = e.count ∧
        e'.maxLength = e.maxLength ∧
          ∀ source out, e'.expandOnto source out = e.expandOnto source out) ∧
      (∀ limit text e, parseWithin limit text = .ok e → e.Legible ∧ e.nesting ≤ limit) ∧
      ∀ config text first rest, Corpus.parse config text = .ok (alt first rest) → rest ≠ [] →
        (∀ branch ∈ first :: rest, branch.encode ≠ "") → (alt first rest).Legible := by
  refine ⟨?_, ?_, ?_⟩
  · intro limit e h hn
    obtain ⟨e', hparse, ha⟩ := parseWithin_encode h hn
    obtain ⟨-, hcount, hlength, hexpand⟩ := alike_singleton.mp ha
    exact ⟨e', hparse, hcount, hlength, hexpand⟩
  · intro limit text e h
    exact legible_of_parseChars h
  · intro config text first rest h hrest htext
    exact Corpus.legible_of_parse h hrest htext

/-- A tree with an empty item, a blank literal and nested sequences comes back as another tree that
behaves alike. -/
theorem rereading_keeps_behaviour_grouped :
    let e := seq [term "a", empty, seq [term "b",
      alt (seq [term "", term "x"]) [seq [alt (term "y") [term "z"], term "w"]]]]
    let e' := seq [term "ab", alt (term "x") [seq [alt (term "y") [term "z"], term "w"]]]
    (e.Legible ∧ e.nesting ≤ 2 ∧ parseWithin 2 e.encode = .ok e' ∧ e' ≠ e ∧ e'.count = e.count ∧
      e'.maxLength = e.maxLength ∧
        ∀ source out, e'.expandOnto source out = e.expandOnto source out) ∧
      (e'.Legible ∧ e'.nesting ≤ 2) ∧
      Corpus.parse .default "a\n<b|>" = .ok (alt (term "a") [term "b"]) ∧
        (alt (term "a") [term "b"]).Legible := by
  intro e e'
  obtain ⟨hreread, hparsed, hcorpus⟩ := rereading_keeps_behaviour
  have hlegible : e.Legible := by
    simp [e, Legible, AllLegible, isDelimiter, encode, chars, charsConcat, charsBarred]
  have hnesting : e.nesting ≤ 2 := by decide
  have hread : parseWithin 2 e.encode = .ok e' := by decide
  have hfile : Corpus.parse .default "a\n<b|>" = .ok (alt (term "a") [term "b"]) := by decide
  obtain ⟨e'', hread', hcount, hlength, hexpand⟩ := hreread 2 e hlegible hnesting
  obtain rfl : e'' = e' := Except.ok.inj (hread'.symm.trans hread)
  refine ⟨⟨hlegible, hnesting, hread, by decide, hcount, hlength, hexpand⟩, ?_, hfile, ?_⟩
  · exact hparsed 2 e.encode e' hread
  · exact hcorpus _ _ _ _ hfile (by decide) (by decide)

end Expr

end ChoiceGrammar
