import ChoiceGrammar.Proofs.Canonical.Rereading
import Mathlib.Data.List.Chain

/-!
# Canonical trees

A tree is canonical when nothing in it is left to simplify: no empty or blank parts, no sequence
inside a sequence, no two literals side by side, and a choice wherever there are brackets. These are
the trees that come back from their canonical text unchanged. For the derivation of the canonical
text of any legible tree collapses to a canonical tree, and for a canonical tree to the tree itself.
-/

namespace ChoiceGrammar

open Markup

namespace Expr

def IsTerm : Expr → Prop
  | term _ => True
  | _ => False

def IsSeq : Expr → Prop
  | seq _ => True
  | _ => False

instance : DecidablePred IsTerm
  | term _ => isTrue trivial
  | empty | seq _ | alt _ _ => isFalse id

instance : DecidablePred IsSeq
  | seq _ => isTrue trivial
  | empty | term _ | alt _ _ => isFalse id

/-- No two literals stand side by side. -/
abbrev Parted (items : List Expr) : Prop := items.IsChain fun a b => ¬ (a.IsTerm ∧ b.IsTerm)

mutual
/-- Canonical and not empty. -/
def Proper : Expr → Prop
  | term text => text ≠ "" ∧ ∀ c ∈ text.toList, isDelimiter c = false
  | empty => False
  | seq items =>
      2 ≤ items.length ∧ (∀ item ∈ items, ¬ item.IsSeq) ∧ Parted items ∧ AllProper items
  | alt first rest => rest ≠ [] ∧ first.Proper ∧ AllProper rest

def AllProper : List Expr → Prop
  | [] => True
  | e :: es => e.Proper ∧ AllProper es
end

/-- Nothing in the tree is left to simplify. -/
def Canonical (e : Expr) : Prop := e = empty ∨ e.Proper

mutual
def decProper : (e : Expr) → Decidable e.Proper
  | term text => inferInstanceAs (Decidable (text ≠ "" ∧ ∀ c ∈ text.toList, isDelimiter c = false))
  | empty => isFalse id
  | seq items =>
      have := decAllProper items
      inferInstanceAs (Decidable
        (2 ≤ items.length ∧ (∀ item ∈ items, ¬ item.IsSeq) ∧ Parted items ∧ AllProper items))
  | alt first rest =>
      have := decProper first
      have := decAllProper rest
      inferInstanceAs (Decidable (rest ≠ [] ∧ first.Proper ∧ AllProper rest))

def decAllProper : (es : List Expr) → Decidable (AllProper es)
  | [] => isTrue trivial
  | e :: es =>
      have := decProper e
      have := decAllProper es
      inferInstanceAs (Decidable (e.Proper ∧ AllProper es))
end

instance : DecidablePred Proper := decProper

instance : DecidablePred Canonical := fun e => inferInstanceAs (Decidable (e = empty ∨ e.Proper))

theorem allProper_iff {es : List Expr} : AllProper es ↔ ∀ e ∈ es, e.Proper := by
  induction es with
  | nil => simp [AllProper]
  | cons e es ih => simp [AllProper, ih]

theorem Proper.legible {e : Expr} (h : e.Proper) : e.Legible ∧ e.encode ≠ "" := by
  induction e using Expr.induct with
  | term text =>
      refine ⟨h.2, encode_ne_empty.mpr ?_⟩
      intro hnil
      exact h.1 (String.toList_eq_nil_iff.mp hnil)
  | empty => exact h.elim
  | seq items ih =>
      obtain ⟨hlen, -, -, hproper⟩ := h
      have hall := allProper_iff.mp hproper
      refine ⟨allLegible_iff.mpr fun item hi => (ih item hi (hall item hi)).1, ?_⟩
      cases items with
      | nil => simp at hlen
      | cons first rest =>
          obtain ⟨-, htext⟩ := ih first (by simp) (hall first (by simp))
          have hchars := encode_ne_empty.mp htext
          exact encode_ne_empty.mpr (by simp [chars, charsConcat, hchars])
  | alt first rest ih =>
      obtain ⟨hrest, hproper⟩ := h
      have hall : ∀ branch ∈ first :: rest, branch.Proper := allProper_iff.mp hproper
      have hlegible : AllLegible (first :: rest) :=
        allLegible_iff.mpr fun branch hb => (ih branch hb (hall branch hb)).1
      refine ⟨⟨hrest, fun branch hb => (ih branch hb (hall branch hb)).2, hlegible⟩, ?_⟩
      exact encode_ne_empty.mpr (by simp [chars])

theorem Canonical.legible {e : Expr} (h : e.Canonical) : e.Legible := by
  rcases h with rfl | h
  · trivial
  · exact h.legible.1

end Expr

namespace Markup

def BeginsWithRun : List Item → Prop
  | .run _ :: _ => True
  | _ => False

theorem survivingItems_append (xs ys : List Item) :
    survivingItems (xs ++ ys) = survivingItems xs ++ survivingItems ys := by
  induction xs with
  | nil => rfl
  | cons x xs ih => simp [survivingItems, ih]

theorem pushLiteral_of_not_beginsWithRun {text : String} {items : List Item} (htext : text ≠ "")
    (h : ¬ BeginsWithRun items) : pushLiteral text items = .run text :: items := by
  unfold pushLiteral
  split
  · exact absurd trivial h
  · rw [if_neg htext]

theorem eq_singleton_of_sequenceOf {es : List Expr} {e : Expr} (h : sequenceOf es = some e)
    (he : ¬ e.IsSeq) : es = [e] := by
  rcases es with _ | ⟨e₁, _ | ⟨e₂, es⟩⟩
  · simp [sequenceOf, joined] at h
  · rw [Option.some.inj h]
  · obtain rfl : .seq (e₁ :: e₂ :: es) = e := Option.some.inj h
    exact absurd trivial he

end Markup

namespace Expr

theorem itemsOnto_eq_append {e : Expr} (h : e.Proper) (hseq : ¬ e.IsSeq) {items : List Item}
    (hitems : e.IsTerm → ¬ BeginsWithRun items) :
    e.itemsOnto items = e.itemsOnto [] ++ items ∧
      (BeginsWithRun (e.itemsOnto items) → e.IsTerm) := by
  cases e with
  | term text =>
      have hpush := pushLiteral_of_not_beginsWithRun h.1 (hitems trivial)
      have hnil : pushLiteral text [] = [.run text] := pushLiteral_of_not_beginsWithRun h.1 id
      exact ⟨hpush.trans (congrArg (· ++ items) hnil).symm, fun _ => trivial⟩
  | empty => exact h.elim
  | seq _ => exact absurd trivial hseq
  | alt first rest => exact ⟨rfl, id⟩

theorem survivingItems_itemsOntoAll {es : List Expr} (hproper : ∀ e ∈ es, e.Proper)
    (hflat : ∀ e ∈ es, ¬ e.IsSeq) (hparted : Parted es)
    (h : ∀ e ∈ es, survivingItems (e.itemsOnto []) = [e]) :
    survivingItems (itemsOntoAll es []) = es ∧
      (BeginsWithRun (itemsOntoAll es []) → ∃ e ∈ es.head?, e.IsTerm) := by
  induction es with
  | nil => exact ⟨rfl, False.elim⟩
  | cons e es ih =>
      obtain ⟨hhead, htail⟩ := List.isChain_cons.mp hparted
      obtain ⟨hes, hbegin⟩ := ih (fun x hx => hproper x (by simp [hx]))
        (fun x hx => hflat x (by simp [hx])) htail (fun x hx => h x (by simp [hx]))
      have hnext : e.IsTerm → ¬ BeginsWithRun (itemsOntoAll es []) := by
        intro hterm hrun
        obtain ⟨x, hx, hxterm⟩ := hbegin hrun
        exact hhead x hx ⟨hterm, hxterm⟩
      obtain ⟨happend, hrun⟩ := itemsOnto_eq_append (hproper e (by simp)) (hflat e (by simp)) hnext
      refine ⟨?_, fun hbegin => ⟨e, rfl, hrun hbegin⟩⟩
      rw [itemsOntoAll, happend, survivingItems_append, h e (by simp), hes]
      rfl

theorem survivingBranches_itemsOfBranches {es : List Expr}
    (h : ∀ e ∈ es, sequenceOf (survivingItems (e.itemsOnto [])) = some e) :
    survivingBranches (itemsOfBranches es) = es := by
  induction es with
  | nil => rfl
  | cons e es ih =>
      rw [itemsOfBranches, survivingBranches, h e (by simp), ih fun x hx => h x (by simp [hx])]
      rfl

theorem sequenceOf_itemsOnto {e : Expr} (h : e.Proper) :
    sequenceOf (survivingItems (e.itemsOnto [])) = some e := by
  induction e using Expr.induct with
  | term text =>
      rw [itemsOnto, pushLiteral_of_not_beginsWithRun h.1 id]
      rfl
  | empty => exact h.elim
  | seq es ih =>
      obtain ⟨hlen, hflat, hparted, hproper⟩ := h
      have hall := allProper_iff.mp hproper
      have hsingle : ∀ e ∈ es, survivingItems (e.itemsOnto []) = [e] := by
        intro e he
        exact eq_singleton_of_sequenceOf (ih e he (hall e he)) (hflat e he)
      obtain ⟨hes, -⟩ := survivingItems_itemsOntoAll hall hflat hparted hsingle
      rw [itemsOnto, hes]
      rcases es with _ | ⟨e₁, _ | ⟨e₂, es⟩⟩
      · simp at hlen
      · simp at hlen
      · rfl
  | alt first rest ih =>
      obtain ⟨hrest, hproper⟩ := h
      have hall : ∀ branch ∈ first :: rest, branch.Proper := allProper_iff.mp hproper
      have hfirst := ih first (by simp) (hall first (by simp))
      have hbranches := survivingBranches_itemsOfBranches
        fun e he => ih e (List.mem_cons_of_mem first he) (hall e (List.mem_cons_of_mem first he))
      rw [itemsOnto, survivingItems, Item.collapse, hfirst, hbranches]
      cases rest with
      | nil => exact absurd rfl hrest
      | cons second rest => rfl

theorem collapse_itemsOnto {e : Expr} (h : e.Canonical) : collapse (e.itemsOnto []) = e := by
  rcases h with rfl | h
  · rfl
  · rw [collapse, sequenceOf_itemsOnto h]
    rfl

end Expr

namespace Markup

mutual
/-- Every group has two or more branches, and every branch an item. -/
def Item.Tight : Item → Prop
  | .run _ => True
  | .group first rest => rest ≠ [] ∧ first ≠ [] ∧ SequenceTight first ∧ BranchesTight rest

def SequenceTight : List Item → Prop
  | [] => True
  | item :: items => item.Tight ∧ SequenceTight items

def BranchesTight : List (List Item) → Prop
  | [] => True
  | branch :: branches => branch ≠ [] ∧ SequenceTight branch ∧ BranchesTight branches
end

/-- What the survivors of well-formed and tight items have in common. -/
structure Neat (es : List Expr) : Prop where
  proper : ∀ e ∈ es, e.Proper
  flat : ∀ e ∈ es, ¬ e.IsSeq
  parted : Expr.Parted es

theorem Neat.exists_sequenceOf {es : List Expr} (h : Neat es) (hne : es ≠ []) :
    ∃ e, sequenceOf es = some e ∧ e.Proper := by
  rcases es with _ | ⟨e₁, _ | ⟨e₂, es⟩⟩
  · exact absurd rfl hne
  · exact ⟨e₁, rfl, h.proper e₁ (by simp)⟩
  · exact ⟨.seq (e₁ :: e₂ :: es), rfl, by simp, h.flat, h.parted, Expr.allProper_iff.mpr h.proper⟩

theorem not_beginsWithRun_of_separated {text : String} {items : List Item}
    (h : Separated (.run text) items) : ¬ BeginsWithRun items := by
  rcases items with _ | ⟨_ | _, items⟩
  · exact id
  · exact h.elim
  · exact id

mutual
theorem proper_item (item : Item) (hw : item.WellFormed) (ht : item.Tight) :
    ∃ e, item.collapse = some e ∧ e.Proper ∧ ¬ e.IsSeq ∧ (e.IsTerm → ∃ text, item = .run text) := by
  cases item with
  | run text => exact ⟨.term text, rfl, hw, id, fun _ => ⟨text, rfl⟩⟩
  | group first rest =>
      obtain ⟨hrest, hfirst, htfirst, htrest⟩ := ht
      obtain ⟨hneat, hne, -⟩ := neat_sequence first hw.1 htfirst
      obtain ⟨e, he, hproper⟩ := hneat.exists_sequenceOf (hne hfirst)
      obtain ⟨hlen, hall⟩ := proper_branches rest hw.2 htrest
      cases hs : survivingBranches rest with
      | nil =>
          rw [hs] at hlen
          exact absurd (List.length_eq_zero_iff.mp hlen.symm) hrest
      | cons second others =>
          refine ⟨.alt e (second :: others), ?_, ⟨by simp, hproper, hs ▸ hall⟩, id, False.elim⟩
          rw [Item.collapse, he, hs]
          rfl

theorem neat_sequence (items : List Item) (hw : SequenceWellFormed items)
    (ht : SequenceTight items) :
    Neat (survivingItems items) ∧ (items ≠ [] → survivingItems items ≠ []) ∧
      ∀ e ∈ (survivingItems items).head?, e.IsTerm → BeginsWithRun items := by
  cases items with
  | nil =>
      have hnone : survivingItems [] = [] := rfl
      rw [hnone]
      exact ⟨⟨by simp, by simp, .nil⟩, fun h => absurd rfl h, by simp⟩
  | cons item items =>
      obtain ⟨hitem, hsep, hitems⟩ := hw
      obtain ⟨e, he, hproper, hflat, hterm⟩ := proper_item item hitem ht.1
      obtain ⟨hneat, -, hhead⟩ := neat_sequence items hitems ht.2
      have hs : survivingItems (item :: items) = e :: survivingItems items := by
        rw [survivingItems, he]
        rfl
      -- a literal survives from a run alone, and two runs never stand side by side
      have hparted : ∀ f ∈ (survivingItems items).head?, ¬ (e.IsTerm ∧ f.IsTerm) := by
        rintro f hf ⟨heterm, hfterm⟩
        obtain ⟨text, rfl⟩ := hterm heterm
        exact not_beginsWithRun_of_separated hsep (hhead f hf hfterm)
      rw [hs]
      refine ⟨⟨?_, ?_, hneat.parted.cons hparted⟩, by simp, ?_⟩
      · exact List.forall_mem_cons.mpr ⟨hproper, hneat.proper⟩
      · exact List.forall_mem_cons.mpr ⟨hflat, hneat.flat⟩
      · intro f hf hfterm
        obtain rfl : e = f := by simpa using hf
        obtain ⟨text, rfl⟩ := hterm hfterm
        trivial

theorem proper_branches (branches : List (List Item)) (hw : BranchesWellFormed branches)
    (ht : BranchesTight branches) :
    (survivingBranches branches).length = branches.length ∧
      Expr.AllProper (survivingBranches branches) := by
  cases branches with
  | nil => exact ⟨rfl, trivial⟩
  | cons branch branches =>
      obtain ⟨hbranch, htbranch, htbranches⟩ := ht
      obtain ⟨hneat, hne, -⟩ := neat_sequence branch hw.1 htbranch
      obtain ⟨e, he, hproper⟩ := hneat.exists_sequenceOf (hne hbranch)
      obtain ⟨hlen, hall⟩ := proper_branches branches hw.2 htbranches
      rw [survivingBranches, he]
      exact ⟨by simp [hlen], hproper, hall⟩
end

theorem canonical_collapse {items : List Item} (hw : SequenceWellFormed items)
    (ht : SequenceTight items) : (collapse items).Canonical := by
  obtain ⟨hneat, hne, -⟩ := neat_sequence items hw ht
  cases items with
  | nil => exact .inl rfl
  | cons item items =>
      obtain ⟨e, he, hproper⟩ := hneat.exists_sequenceOf (hne (by simp))
      rw [collapse, he]
      exact .inr hproper

theorem sequenceTight_pushLiteral (text : String) {items : List Item} (h : SequenceTight items) :
    SequenceTight (pushLiteral text items) := by
  unfold pushLiteral
  split
  · exact h
  · split
    · exact h
    · exact ⟨trivial, h⟩

end Markup

namespace Expr

theorem itemsOnto_ne_nil {e : Expr} (h : e.encode ≠ "") : e.itemsOnto [] ≠ [] := by
  intro hnil
  have hchars := sequenceChars_itemsOnto e []
  rw [hnil, sequenceChars, List.append_nil] at hchars
  exact encode_ne_empty.mp h hchars.symm

theorem sequenceTight_itemsOntoAll {es : List Expr}
    (h : ∀ e ∈ es, ∀ {items}, SequenceTight items → SequenceTight (e.itemsOnto items))
    {items : List Item} (ht : SequenceTight items) : SequenceTight (itemsOntoAll es items) := by
  induction es with
  | nil => exact ht
  | cons e es ih => exact h e (by simp) (ih fun x hx => h x (by simp [hx]))

theorem branchesTight_itemsOfBranches {es : List Expr} (htext : ∀ e ∈ es, e.encode ≠ "")
    (h : ∀ e ∈ es, SequenceTight (e.itemsOnto [])) : BranchesTight (itemsOfBranches es) := by
  induction es with
  | nil => trivial
  | cons e es ih =>
      refine ⟨itemsOnto_ne_nil (htext e (by simp)), h e (by simp), ?_⟩
      exact ih (fun x hx => htext x (by simp [hx])) fun x hx => h x (by simp [hx])

theorem sequenceTight_itemsOnto {e : Expr} (h : e.Legible) {items : List Item}
    (ht : SequenceTight items) : SequenceTight (e.itemsOnto items) := by
  induction e using Expr.induct generalizing items with
  | term text => exact sequenceTight_pushLiteral text ht
  | empty => exact ht
  | seq es ih =>
      have hes : AllLegible es := h
      exact sequenceTight_itemsOntoAll (fun e he => ih e he (allLegible_iff.mp hes e he)) ht
  | alt first rest ih =>
      obtain ⟨hrest, htext, hbranches⟩ := h
      have hlegible : AllLegible (first :: rest) := hbranches
      have hall : ∀ branch ∈ first :: rest, SequenceTight (branch.itemsOnto []) := by
        intro branch hbranch
        exact ih branch hbranch (allLegible_iff.mp hlegible branch hbranch) trivial
      obtain ⟨hfirst, hothers⟩ := List.forall_mem_cons.mp hall
      obtain ⟨htfirst, htothers⟩ := List.forall_mem_cons.mp htext
      refine ⟨⟨?_, itemsOnto_ne_nil htfirst, hfirst, ?_⟩, ht⟩
      · cases rest with
        | nil => exact absurd rfl hrest
        | cons second rest => simp [itemsOfBranches]
      · exact branchesTight_itemsOfBranches htothers hothers

/-- What the canonical text of a legible tree reads back as is canonical. -/
theorem canonical_collapse_itemsOnto {e : Expr} (h : e.Legible) :
    (collapse (e.itemsOnto [])).Canonical :=
  canonical_collapse (derives_itemsOnto h).wellFormed (sequenceTight_itemsOnto h trivial)

/-- A tree comes back unchanged from its canonical text exactly when it is canonical and nests no
deeper than the limit. -/
theorem parseWithin_encode_eq_self_iff (limit : Nat) (e : Expr) :
    parseWithin limit e.encode = .ok e ↔ e.Canonical ∧ e.nesting ≤ limit := by
  constructor
  · intro h
    obtain ⟨hlegible, hnesting⟩ := legible_of_parseChars h
    have hread : collapse (e.itemsOnto []) = e :=
      Except.ok.inj ((parseWithin_encode_eq hlegible hnesting).symm.trans h)
    rw [← hread]
    exact ⟨canonical_collapse_itemsOnto hlegible, hread.symm ▸ hnesting⟩
  · rintro ⟨hcanonical, hnesting⟩
    rw [parseWithin_encode_eq hcanonical.legible hnesting, collapse_itemsOnto hcanonical]

/-- Literals side by side come back as one. -/
example : ¬ (seq [term "a", term "b"]).Canonical ∧
    parse (seq [term "a", term "b"]).encode = .ok (term "ab") := by decide

end Expr

end ChoiceGrammar
