import ChoiceGrammar.Expr.Encode
import ChoiceGrammar.Proofs.Corpus.Entries
import ChoiceGrammar.Proofs.Markup.Accepting

/-!
# Legible trees

A tree is legible when its canonical text shows where its alternations are and how many branches
they have: no delimiter hides in a literal, and an alternation has two or more branches, all of
them with some text. What is parsed is legible, and so is a corpus of two or more lines none of
which comes to nothing.
-/

namespace ChoiceGrammar

open Markup

namespace Expr

mutual
def Legible : Expr → Prop
  | term text => ∀ c ∈ text.toList, isDelimiter c = false
  | empty => True
  | seq items => AllLegible items
  | alt first rest =>
      rest ≠ [] ∧ (∀ branch ∈ first :: rest, branch.encode ≠ "") ∧ first.Legible ∧ AllLegible rest

def AllLegible : List Expr → Prop
  | [] => True
  | e :: es => e.Legible ∧ AllLegible es
end

mutual
def nesting : Expr → Nat
  | term _ => 0
  | empty => 0
  | seq items => nestingMax items
  | alt first rest => max first.nesting (nestingMax rest) + 1

def nestingMax : List Expr → Nat
  | [] => 0
  | e :: es => max e.nesting (nestingMax es)
end

theorem allLegible_iff {es : List Expr} : AllLegible es ↔ ∀ e ∈ es, e.Legible := by
  induction es with
  | nil => simp [AllLegible]
  | cons e es ih => simp [AllLegible, ih]

theorem nestingMax_le {es : List Expr} {n : Nat} (h : ∀ e ∈ es, e.nesting ≤ n) :
    nestingMax es ≤ n := by
  induction es with
  | nil => exact Nat.zero_le n
  | cons e es ih =>
      rw [nestingMax]
      have hhead := h e (by simp)
      have htail := ih fun e he => h e (by simp [he])
      omega

theorem encode_ne_empty {e : Expr} : e.encode ≠ "" ↔ e.chars ≠ [] := by
  rw [Ne, ← String.toList_eq_nil_iff, toList_encode]

end Expr

namespace Markup

/-- What is known of an expression that survives from groups nested so deep. -/
structure Survivor (depth : Nat) (e : Expr) : Prop where
  legible : e.Legible
  chars_ne_nil : e.chars ≠ []
  nesting_le : e.nesting ≤ depth

theorem Survivor.mono {m n : Nat} {e : Expr} (hmn : m ≤ n) (h : Survivor m e) : Survivor n e :=
  ⟨h.legible, h.chars_ne_nil, Nat.le_trans h.nesting_le hmn⟩

theorem survivor_sequenceOf {n : Nat} {es : List Expr} (h : ∀ e ∈ es, Survivor n e) {e : Expr}
    (he : sequenceOf es = some e) : Survivor n e := by
  rcases es with _ | ⟨e₁, _ | ⟨e₂, es⟩⟩
  · simp [sequenceOf, joined] at he
  · obtain rfl : e₁ = e := Option.some.inj he
    exact h e₁ (by simp)
  · obtain rfl : .seq (e₁ :: e₂ :: es) = e := Option.some.inj he
    refine ⟨?_, ?_, ?_⟩
    · apply Expr.allLegible_iff.mpr
      intro e he
      exact (h e he).legible
    · have hfirst := (h e₁ (by simp)).chars_ne_nil
      simp [Expr.chars, Expr.charsConcat, hfirst]
    · apply Expr.nestingMax_le
      intro e he
      exact (h e he).nesting_le

theorem survivor_alternationOf {n : Nat} {es : List Expr} (h : ∀ e ∈ es, Survivor n e) {e : Expr}
    (he : alternationOf es = some e) : Survivor (n + 1) e := by
  rcases es with _ | ⟨e₁, _ | ⟨e₂, es⟩⟩
  · simp [alternationOf, joined] at he
  · obtain rfl : e₁ = e := Option.some.inj he
    exact (h e₁ (by simp)).mono (Nat.le_succ n)
  · obtain rfl : .alt e₁ (e₂ :: es) = e := Option.some.inj he
    have hfirst := h e₁ (by simp)
    refine ⟨⟨by simp, ?_, hfirst.legible, ?_⟩, by simp [Expr.chars], ?_⟩
    · intro branch hbranch
      exact Expr.encode_ne_empty.mpr (h branch hbranch).chars_ne_nil
    · apply Expr.allLegible_iff.mpr
      intro e he
      exact (h e (List.mem_cons_of_mem e₁ he)).legible
    · have hrest : Expr.nestingMax (e₂ :: es) ≤ n := by
        apply Expr.nestingMax_le
        intro e he
        exact (h e (List.mem_cons_of_mem e₁ he)).nesting_le
      have := hfirst.nesting_le
      rw [Expr.nesting]
      omega

mutual
theorem survivor_item (item : Item) (h : item.WellFormed) {e : Expr}
    (he : item.collapse = some e) : Survivor item.nesting e := by
  cases item with
  | run text =>
      obtain rfl : .term text = e := Option.some.inj he
      refine ⟨h.2, ?_, Nat.zero_le _⟩
      intro hnil
      exact h.1 (String.toList_eq_nil_iff.mp hnil)
  | group first rest =>
      refine survivor_alternationOf ?_ he
      intro branch hbranch
      rcases List.mem_append.mp hbranch with hfirst | hrest
      · have hs := survivor_sequence first h.1
        have hbranch := survivor_sequenceOf hs (Option.mem_toList.mp hfirst)
        apply hbranch.mono
        exact Nat.le_max_left _ _
      · have hbranch := survivor_branches rest h.2 branch hrest
        apply hbranch.mono
        exact Nat.le_max_right _ _

theorem survivor_sequence (items : List Item) (h : SequenceWellFormed items) :
    ∀ e ∈ survivingItems items, Survivor (sequenceNesting items) e := by
  cases items with
  | nil => simp [survivingItems]
  | cons item items =>
      intro e he
      rcases List.mem_append.mp he with hitem | hitems
      · have hs := survivor_item item h.1 (Option.mem_toList.mp hitem)
        apply hs.mono
        exact Nat.le_max_left _ _
      · have hs := survivor_sequence items h.2.2 e hitems
        apply hs.mono
        exact Nat.le_max_right _ _

theorem survivor_branches (branches : List (List Item)) (h : BranchesWellFormed branches) :
    ∀ e ∈ survivingBranches branches, Survivor (branchesNesting branches) e := by
  cases branches with
  | nil => simp [survivingBranches]
  | cons branch branches =>
      intro e he
      rcases List.mem_append.mp he with hbranch | hbranches
      · have hs := survivor_sequence branch h.1
        have he := survivor_sequenceOf hs (Option.mem_toList.mp hbranch)
        apply he.mono
        exact Nat.le_max_left _ _
      · have hs := survivor_branches branches h.2 e hbranches
        apply hs.mono
        exact Nat.le_max_right _ _
end

end Markup

namespace Expr

/-- A parsed tree is legible, and its alternations nest within the limit. -/
theorem legible_of_parseChars {limit : Nat} {text : List Char} {e : Expr}
    (h : parseChars limit text = .ok e) : e.Legible ∧ e.nesting ≤ limit := by
  obtain ⟨items, hd, hn, rfl⟩ := derives_of_read h
  have hs := survivor_sequence items hd.wellFormed
  cases hc : sequenceOf (survivingItems items) with
  | none =>
      rw [collapse, hc]
      exact ⟨trivial, Nat.zero_le limit⟩
  | some e =>
      have he := survivor_sequenceOf hs hc
      rw [collapse, hc]
      exact ⟨he.legible, Nat.le_trans he.nesting_le hn⟩

end Expr

namespace Corpus

theorem legible_of_parse {config : CorpusConfig} {text : String} {first : Expr} {rest : List Expr}
    (h : parse config text = .ok (.alt first rest)) (hrest : rest ≠ [])
    (htext : ∀ branch ∈ first :: rest, branch.encode ≠ "") : (Expr.alt first rest).Legible := by
  have hlegible : ∀ branch ∈ first :: rest, branch.Legible := by
    intro branch hbranch
    obtain ⟨line, -, hline⟩ := exists_mem_of_forall₂ (forall₂_of_parse h) hbranch
    exact (Expr.legible_of_parseChars hline).1
  refine ⟨hrest, htext, hlegible first (by simp), ?_⟩
  apply Expr.allLegible_iff.mpr
  intro e he
  exact hlegible e (by simp [he])

end Corpus

end ChoiceGrammar
