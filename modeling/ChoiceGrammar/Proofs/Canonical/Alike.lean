import Mathlib.Data.List.Forall2
import ChoiceGrammar.Expr.Encode
import ChoiceGrammar.Expr.Expand
import ChoiceGrammar.Proofs.Counting.Saturation

/-!
# Lists of items that behave alike

Two lists of items are alike when no observation of a sequence tells them apart: not its canonical
text, not its count, not its longest output, and not its expansion from any source of words. Lists
stay alike when items are regrouped, when adjacent literals are joined, when what is empty is left
out, and when the branches of an alternation are replaced by alike ones.
-/

namespace ChoiceGrammar.Expr

structure Alike (xs ys : List Expr) : Prop where
  chars : charsConcat xs = charsConcat ys
  count : countProduct xs = countProduct ys
  length : lengthSum xs = lengthSum ys
  expand (source : WordSource) (out : Output) : expandAll source xs out = expandAll source ys out

theorem charsConcat_append (xs ys : List Expr) :
    charsConcat (xs ++ ys) = charsConcat xs ++ charsConcat ys := by
  induction xs with
  | nil => rfl
  | cons x xs ih => simp [charsConcat, ih]

theorem lengthSum_append (xs ys : List Expr) :
    lengthSum (xs ++ ys) = lengthSum xs + lengthSum ys := by
  induction xs with
  | nil => simp [lengthSum]
  | cons x xs ih => simp [lengthSum, ih, UInt64.add_assoc]

theorem expandAll_append (source : WordSource) (xs ys : List Expr) (out : Output) :
    expandAll source (xs ++ ys) out =
      (expandAll source xs out).bind (expandAll source ys) := by
  induction xs generalizing out with
  | nil => rfl
  | cons x xs ih =>
      simp only [List.cons_append, expandAll]
      cases x.expandOnto source out with
      | none => rfl
      | some next => exact ih next

@[simp] theorem charsConcat_singleton (e : Expr) : charsConcat [e] = e.chars :=
  List.append_nil e.chars

theorem alike_singleton {a b : Expr} : Alike [a] [b] ↔
    a.chars = b.chars ∧ a.count = b.count ∧ a.maxLength = b.maxLength ∧
      ∀ source out, a.expandOnto source out = b.expandOnto source out := by
  have hexpand : ∀ source e out, expandAll source [e] out = e.expandOnto source out := by
    intro source e out
    simp only [expandAll]
    cases e.expandOnto source out <;> rfl
  constructor
  · rintro ⟨hchars, hcount, hlength, hall⟩
    refine ⟨?_, ?_, ?_, ?_⟩
    · simpa using hchars
    · simpa using hcount
    · simpa [lengthSum] using hlength
    · intro source out
      simpa only [hexpand] using hall source out
  · rintro ⟨hchars, hcount, hlength, hall⟩
    refine ⟨?_, ?_, ?_, ?_⟩
    · simp [hchars]
    · simp [hcount]
    · simp [lengthSum, hlength]
    · intro source out
      rw [hexpand, hexpand, hall]

namespace Alike

variable {xs ys zs ws : List Expr}

theorem refl (xs : List Expr) : Alike xs xs := ⟨rfl, rfl, rfl, fun _ _ => rfl⟩

theorem symm (h : Alike xs ys) : Alike ys xs :=
  ⟨h.chars.symm, h.count.symm, h.length.symm, fun source out => (h.expand source out).symm⟩

theorem trans (h : Alike xs ys) (h' : Alike ys zs) : Alike xs zs :=
  ⟨h.chars.trans h'.chars, h.count.trans h'.count, h.length.trans h'.length,
    fun source out => (h.expand source out).trans (h'.expand source out)⟩

theorem append (h : Alike xs ys) (h' : Alike zs ws) : Alike (xs ++ zs) (ys ++ ws) where
  chars := by rw [charsConcat_append, charsConcat_append, h.chars, h'.chars]
  count := by rw [countProduct_append, countProduct_append, h.count, h'.count]
  length := by rw [lengthSum_append, lengthSum_append, h.length, h'.length]
  expand source out := by
    have hrest : expandAll source zs = expandAll source ws := funext (h'.expand source)
    rw [expandAll_append, expandAll_append, h.expand source out, hrest]

theorem cons (e : Expr) (h : Alike xs ys) : Alike (e :: xs) (e :: ys) := (refl [e]).append h

theorem flatten (xs ys : List Expr) : Alike (.seq xs :: ys) (xs ++ ys) where
  chars := by rw [charsConcat_append]; rfl
  count := by rw [countProduct_append]; rfl
  length := by rw [lengthSum_append]; rfl
  expand source out := by
    rw [expandAll_append, expandAll, expandOnto]
    cases expandAll source xs out <;> rfl

theorem drop_empty (xs : List Expr) : Alike (.empty :: xs) xs where
  chars := rfl
  count := by simp [countProduct, Expr.count]
  length := by simp [lengthSum, maxLength]
  expand _ _ := rfl

theorem drop_blank (xs : List Expr) : Alike (.term "" :: xs) xs where
  chars := rfl
  count := by simp [countProduct, Expr.count]
  length := by simp [lengthSum, maxLength]
  expand source out := by simp [expandAll, expandOnto]

theorem join (s t : String) (xs : List Expr) :
    Alike (.term (s ++ t) :: xs) (.term s :: .term t :: xs) where
  chars := by simp [charsConcat, Expr.chars]
  count := by simp [countProduct, Expr.count]
  length := by simp [lengthSum, maxLength, UInt64.add_assoc]
  expand source out := by simp [expandAll, expandOnto, String.append_assoc]

end Alike

/-! ## Alternations

Which branch owns a draw depends on the weights alone, and so alike branches are drawn alike.
-/

theorem runningTotals_congr {as bs : List Expr} (h : as.map weight = bs.map weight)
    (before : Weight) : runningTotals before as = runningTotals before bs := by
  induction as generalizing bs before with
  | nil =>
      cases bs with
      | nil => rfl
      | cons b bs => simp at h
  | cons a as ih =>
      cases bs with
      | nil => simp at h
      | cons b bs =>
          obtain ⟨hab, habs⟩ := List.cons.inj h
          simp only [runningTotals]
          rw [hab, ih habs]

theorem selectIndex_congr {as bs : List Expr} (h : as.map weight = bs.map weight) (draw : Weight) :
    selectIndex as draw = selectIndex bs draw := by
  have hlen : as.length = bs.length := by simpa using congrArg List.length h
  rw [selectIndex, selectIndex, runningTotals_congr h, hlen]

theorem expandOnto_alt (source : WordSource) (first : Expr) (rest : List Expr) (out : Output) :
    (alt first rest).expandOnto source out =
      (Draw.uniform source (totalWeight (first :: rest)) out.position).bind fun drawn =>
        expandNth source (first :: rest) (selectIndex (first :: rest) drawn.1)
          { out with position := drawn.2 } := by
  rw [expandOnto]
  cases Draw.uniform source (totalWeight (first :: rest)) out.position with
  | none => rfl
  | some drawn =>
      obtain ⟨draw, position⟩ := drawn
      simp only [Option.bind_some]
      cases selectIndex (first :: rest) draw <;> rfl

abbrev BranchesAlike (as bs : List Expr) : Prop := List.Forall₂ (fun a b => Alike [a] [b]) as bs

namespace BranchesAlike

variable {as bs : List Expr}

theorem weights (h : BranchesAlike as bs) : as.map weight = bs.map weight := by
  induction h with
  | nil => rfl
  | cons hab _ ih =>
      obtain ⟨-, hcount, -, -⟩ := alike_singleton.mp hab
      rw [List.map_cons, List.map_cons, ih, weight, weight, hcount]

theorem charsBarred_eq (h : BranchesAlike as bs) : charsBarred as = charsBarred bs := by
  induction h with
  | nil => rfl
  | cons hab _ ih =>
      obtain ⟨hchars, -, -, -⟩ := alike_singleton.mp hab
      rw [charsBarred, charsBarred, ih, hchars]

theorem lengthMax_eq (h : BranchesAlike as bs) : lengthMax as = lengthMax bs := by
  induction h with
  | nil => rfl
  | cons hab _ ih =>
      obtain ⟨-, -, hlength, -⟩ := alike_singleton.mp hab
      rw [lengthMax, lengthMax, ih, hlength]

theorem expandNth_eq (h : BranchesAlike as bs) (source : WordSource) (i : Nat) (out : Output) :
    expandNth source as i out = expandNth source bs i out := by
  induction h generalizing i with
  | nil => rfl
  | cons hab _ ih =>
      obtain ⟨-, -, -, hexpand⟩ := alike_singleton.mp hab
      cases i with
      | zero => exact hexpand source out
      | succ i => exact ih i

end BranchesAlike

theorem Alike.alternation {a b : Expr} {as bs : List Expr} (h : Alike [a] [b])
    (hs : BranchesAlike as bs) : Alike [.alt a as] [.alt b bs] := by
  have hall : BranchesAlike (a :: as) (b :: bs) := .cons h hs
  have hweight : totalWeight (a :: as) = totalWeight (b :: bs) := by
    rw [totalWeight, totalWeight, hall.weights]
  obtain ⟨hchars, -, hlength, -⟩ := alike_singleton.mp h
  refine alike_singleton.mpr ⟨?_, ?_, ?_, ?_⟩
  · rw [Expr.chars, Expr.chars, hchars, hs.charsBarred_eq]
  · rw [count_alt, count_alt, hweight]
  · rw [maxLength, maxLength, hlength, hs.lengthMax_eq]
  · intro source out
    rw [expandOnto_alt, expandOnto_alt, hweight]
    congr 1
    funext drawn
    rw [selectIndex_congr hall.weights, hall.expandNth_eq]

end ChoiceGrammar.Expr
