import ChoiceGrammar.Markup.Basic

/-!
# Derivations

The grammar of markup:

    sequence := (run | group)*
    group    := '<' sequence ('|' sequence)* '>'

A run is a stretch of characters other than the three delimiters, as long as it can be. A derivation
is kept as a list of items. `sequenceChars` is the text that it derives, `SequenceWellFormed` says
that its runs are runs, and `collapse` is the expression that it stands for.
-/

namespace ChoiceGrammar.Markup

inductive Item where
  | run (text : String)
  | group (first : List Item) (rest : List (List Item))
  deriving Inhabited

/-- The characters that structure markup; all others are literal. -/
def isDelimiter (c : Char) : Bool := c == '<' || c == '|' || c == '>'

/-- No run stands side by side with the run before it. -/
def Separated : Item → List Item → Prop
  | .run _, .run _ :: _ => False
  | _, _ => True

mutual
def Item.chars : Item → List Char
  | .run text => text.toList
  | .group first rest => '<' :: (sequenceChars first ++ barredChars rest)

/-- The text of a sequence of items. -/
def sequenceChars : List Item → List Char
  | [] => []
  | item :: items => item.chars ++ sequenceChars items

/-- The remaining branches of a group, each after a bar, and the closing bracket. -/
def barredChars : List (List Item) → List Char
  | [] => ['>']
  | branch :: branches => '|' :: (sequenceChars branch ++ barredChars branches)
end

mutual
def Item.WellFormed : Item → Prop
  | .run text => text ≠ "" ∧ ∀ c ∈ text.toList, isDelimiter c = false
  | .group first rest => SequenceWellFormed first ∧ BranchesWellFormed rest

def SequenceWellFormed : List Item → Prop
  | [] => True
  | item :: items => item.WellFormed ∧ Separated item items ∧ SequenceWellFormed items

def BranchesWellFormed : List (List Item) → Prop
  | [] => True
  | branch :: branches => SequenceWellFormed branch ∧ BranchesWellFormed branches
end

mutual
def Item.nesting : Item → Nat
  | .run _ => 0
  | .group first rest => max (sequenceNesting first) (branchesNesting rest) + 1

def sequenceNesting : List Item → Nat
  | [] => 0
  | item :: items => max item.nesting (sequenceNesting items)

def branchesNesting : List (List Item) → Nat
  | [] => 0
  | branch :: branches => max (sequenceNesting branch) (branchesNesting branches)
end

/-- Nothing of none, the only one itself, and two or more joined. -/
def joined (join : Expr → Expr → List Expr → Expr) : List Expr → Option Expr
  | [] => none
  | [e] => some e
  | e :: f :: es => some (join e f es)

theorem joined_eq_none_iff {join : Expr → Expr → List Expr → Expr} {es : List Expr} :
    joined join es = none ↔ es = [] := by
  rcases es with _ | ⟨e, _ | ⟨f, es⟩⟩ <;> simp [joined]

def sequenceOf : List Expr → Option Expr := joined fun e f es => .seq (e :: f :: es)

def alternationOf : List Expr → Option Expr := joined fun e f es => .alt e (f :: es)

mutual
/-- What remains of an item from the bottom up. -/
def Item.collapse : Item → Option Expr
  | .run text => some (.term text)
  | .group first rest =>
      alternationOf ((sequenceOf (survivingItems first)).toList ++ survivingBranches rest)

def survivingItems : List Item → List Expr
  | [] => []
  | item :: items => item.collapse.toList ++ survivingItems items

def survivingBranches : List (List Item) → List Expr
  | [] => []
  | branch :: branches =>
      (sequenceOf (survivingItems branch)).toList ++ survivingBranches branches
end

/-- The expression that a whole text of markup stands for. -/
def collapse (items : List Item) : Expr := (sequenceOf (survivingItems items)).getD .empty

theorem collapseSequence_eq (items : List Expr) : collapseSequence items = sequenceOf items := by
  rcases items with _ | ⟨e, _ | ⟨f, es⟩⟩ <;> rfl

theorem collapseGroup_eq (branches : List Expr) :
    collapseGroup branches = alternationOf branches := by
  rcases branches with _ | ⟨e, _ | ⟨f, es⟩⟩ <;> rfl

structure Derives (items : List Item) (text : List Char) : Prop where
  wellFormed : SequenceWellFormed items
  chars_eq : sequenceChars items = text

theorem Item.WellFormed.run_cons {text : String} (h : (Item.run text).WellFormed) :
    ∃ c cs, text.toList = c :: cs ∧ isDelimiter c = false := by
  cases hl : text.toList with
  | nil => exact absurd (String.toList_eq_nil_iff.mp hl) h.1
  | cons c cs => exact ⟨c, cs, rfl, h.2 c (by simp [hl])⟩

/-- A literal before this text ends where the text begins. -/
def AtDelimiter : List Char → Prop
  | [] => True
  | c :: _ => isDelimiter c = true

/-- A sequence before this text ends where the text begins. -/
def AtEnd : List Char → Prop
  | [] => True
  | c :: _ => c = '|' ∨ c = '>'

theorem atEnd_nil : AtEnd [] := trivial

theorem AtEnd.atDelimiter {text : List Char} (h : AtEnd text) : AtDelimiter text := by
  cases text with
  | nil => trivial
  | cons c cs => rcases h with rfl | rfl <;> rfl

theorem atEnd_barredChars (branches : List (List Item)) (text : List Char) :
    AtEnd (barredChars branches ++ text) := by
  cases branches with
  | nil => exact .inr rfl
  | cons branch branches => exact .inl rfl

theorem atDelimiter_of_separated {item : Item} {items : List Item} {text : List Char}
    (h : Separated item items) (ht : AtEnd text) (run : String) (hrun : item = .run run) :
    AtDelimiter (sequenceChars items ++ text) := by
  subst hrun
  cases items with
  | nil => exact ht.atDelimiter
  | cons item items =>
      cases item with
      | run _ => exact h.elim
      | group first rest => rfl

/-- The items with a literal before them, which joins the run they begin with. -/
def pushLiteral (text : String) : List Item → List Item
  | .run run :: items => .run (text ++ run) :: items
  | items => if text = "" then items else .run text :: items

theorem sequenceChars_pushLiteral (text : String) (items : List Item) :
    sequenceChars (pushLiteral text items) = text.toList ++ sequenceChars items := by
  unfold pushLiteral
  split
  · simp [sequenceChars, Item.chars]
  · split
    · next h => simp [h]
    · rfl

theorem sequenceNesting_pushLiteral (text : String) (items : List Item) :
    sequenceNesting (pushLiteral text items) = sequenceNesting items := by
  unfold pushLiteral
  split
  · rfl
  · split
    · rfl
    · simp [sequenceNesting, Item.nesting]

theorem sequenceWellFormed_pushLiteral {text : String} {items : List Item}
    (ht : ∀ c ∈ text.toList, isDelimiter c = false) (h : SequenceWellFormed items) :
    SequenceWellFormed (pushLiteral text items) := by
  unfold pushLiteral
  split
  · next run items =>
      obtain ⟨⟨hne, hr⟩, hs, hi⟩ := h
      refine ⟨⟨by simp [hne], ?_⟩, ?_, hi⟩
      · intro c hc
        rw [String.toList_append, List.mem_append] at hc
        exact hc.elim (ht c) (hr c)
      · cases items with
        | nil => trivial
        | cons item _ => cases item <;> exact hs
  · next hrun =>
      split
      · exact h
      · next hne =>
          refine ⟨⟨hne, ht⟩, ?_, h⟩
          cases items with
          | nil => trivial
          | cons item items =>
              cases item with
              | run run => exact (hrun run items rfl).elim
              | group _ _ => trivial

end ChoiceGrammar.Markup
