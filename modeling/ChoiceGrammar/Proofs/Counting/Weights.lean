import Mathlib.Algebra.Ring.Nat
import ChoiceGrammar.Expr.Count

/-!
# Weights and the ranges of draws

With fewer than `2 ^ 64` branches the running totals are exact sums of counts. Branch `i` owns the
draws from the sum of the counts before it up to that sum and its own count.
-/

namespace ChoiceGrammar.Expr

/-- The exact sum of the counts. -/
def weightSum (branches : List Expr) : Nat := (branches.map fun branch => branch.count.toNat).sum

@[simp] theorem weightSum_nil : weightSum [] = 0 := rfl

@[simp] theorem weightSum_cons (branch : Expr) (branches : List Expr) :
    weightSum (branch :: branches) = branch.count.toNat + weightSum branches := by
  simp [weightSum]

theorem weightSum_lt {branches : List Expr} (h : branches.length < 2 ^ 64) :
    weightSum branches < 2 ^ 128 := by
  have hle : weightSum branches ≤ branches.length * (2 ^ 64 - 1) := by
    induction branches with
    | nil => exact Nat.le_refl 0
    | cons branch branches ih =>
        have hb := branch.count.toNat_lt
        simp only [List.length_cons] at h
        have := ih (by omega)
        simp only [weightSum_cons, List.length_cons]
        omega
  omega

theorem totalWeight_toNat {branches : List Expr} (h : branches.length < 2 ^ 64) :
    (totalWeight branches).toNat = weightSum branches := by
  induction branches with
  | nil => rfl
  | cons branch branches ih =>
      have hlt := weightSum_lt h
      have htail : (totalWeight branches).toNat = weightSum branches :=
        ih (by simp only [List.length_cons] at h; omega)
      rw [weightSum_cons] at hlt ⊢
      simp only [totalWeight, List.map_cons, List.foldr_cons, BitVec.toNat_add, weight,
        widen_toNat] at htail ⊢
      rw [htail, Nat.mod_eq_of_lt hlt]

theorem findIdx_runningTotals {before draw : Weight} {branches : List Expr} {i : Nat}
    (hfit : before.toNat + weightSum branches < 2 ^ 128) (hle : before.toNat ≤ draw.toNat)
    (hi : i < branches.length) :
    (runningTotals before branches).findIdx (draw < ·) = i ↔
      before.toNat + weightSum (branches.take i) ≤ draw.toNat ∧
        draw.toNat < before.toNat + weightSum (branches.take (i + 1)) := by
  induction branches generalizing before i with
  | nil => simp at hi
  | cons branch branches ih =>
      rw [weightSum_cons] at hfit
      have hb : (before + branch.weight).toNat = before.toNat + branch.count.toNat := by
        rw [BitVec.toNat_add, weight, widen_toNat]
        exact Nat.mod_eq_of_lt (by omega)
      have hdraw : draw < before + branch.weight ↔
          draw.toNat < before.toNat + branch.count.toNat := by
        rw [BitVec.lt_def, hb]
      rw [runningTotals, List.findIdx_cons]
      by_cases hlt : draw < before + branch.weight
      · have hlt' := hdraw.mp hlt
        cases i with
        | zero => simp [hlt, hle, hlt']
        | succ i =>
            simp only [hlt, decide_true, cond_true, List.take_succ_cons, weightSum_cons]
            omega
      · have hge := mt hdraw.mpr hlt
        cases i with
        | zero =>
            simp [hlt]
            omega
        | succ i =>
            have hnext : (before + branch.weight).toNat ≤ draw.toNat := by omega
            have hrest := ih (by omega) hnext (Nat.lt_of_succ_lt_succ hi)
            simp only [hlt, decide_false, cond_false, List.take_succ_cons, weightSum_cons,
              Nat.add_right_cancel_iff, hrest, hb]
            omega

theorem weightSum_take_succ {branches : List Expr} {branch : Expr} {i : Nat}
    (h : branches[i]? = some branch) :
    weightSum (branches.take (i + 1)) = weightSum (branches.take i) + branch.count.toNat ∧
      weightSum (branches.take (i + 1)) ≤ weightSum branches := by
  induction branches generalizing i with
  | nil => simp at h
  | cons first rest ih =>
      cases i with
      | zero =>
          obtain rfl : first = branch := by simpa using h
          simp
      | succ i =>
          obtain ⟨heq, hle⟩ := ih (by simpa using h)
          simp only [List.take_succ_cons, weightSum_cons] at heq hle ⊢
          omega

theorem getLast?_runningTotals (before : Weight) (first : Expr) (rest : List Expr) :
    (runningTotals before (first :: rest)).getLast? =
      some (before + totalWeight (first :: rest)) := by
  induction rest generalizing before first with
  | nil => simp [runningTotals, totalWeight]
  | cons second rest ih =>
      have hrest := ih (before + first.weight) second
      rw [runningTotals, List.getLast?_cons, hrest]
      simp [totalWeight, BitVec.add_assoc]

/-- A branch is selected by the draws of its range and by no others below the total. -/
theorem selectIndex_eq_iff {branches : List Expr} {draw : Weight} {i : Nat}
    (hlen : branches.length < 2 ^ 64) (hi : i < branches.length)
    (hdraw : draw.toNat < weightSum branches) :
    selectIndex branches draw = i ↔
      weightSum (branches.take i) ≤ draw.toNat ∧
        draw.toNat < weightSum (branches.take (i + 1)) := by
  have hfit : (0 : Weight).toNat + weightSum branches < 2 ^ 128 := by
    simpa using weightSum_lt hlen
  have hrange := findIdx_runningTotals hfit (Nat.zero_le draw.toNat) hi
  have hsome : (runningTotals 0 branches).findIdx (draw < ·) < branches.length := by
    rw [← length_runningTotals 0 branches]
    apply List.findIdx_lt_length_of_exists
    cases branches with
    | nil => simp at hi
    | cons first rest =>
        refine ⟨_, List.mem_of_getLast? (getLast?_runningTotals 0 first rest), ?_⟩
        simpa [BitVec.lt_def, totalWeight_toNat hlen] using hdraw
  have hindex : selectIndex branches draw = (runningTotals 0 branches).findIdx (draw < ·) :=
    Nat.min_eq_left (by omega)
  simpa [hindex] using hrange

theorem exists_draw_selecting {branches : List Expr} {branch : Expr} {i : Nat}
    (hlen : branches.length < 2 ^ 64) (hi : branches[i]? = some branch)
    (hpos : 0 < branch.count.toNat) :
    ∃ draw : Weight, draw.toNat < (totalWeight branches).toNat ∧ selectIndex branches draw = i := by
  obtain ⟨hlt, -⟩ := List.getElem?_eq_some_iff.mp hi
  obtain ⟨hend, htotal⟩ := weightSum_take_succ hi
  have hfit := weightSum_lt hlen
  let draw : Weight := .ofNat 128 (weightSum (branches.take i))
  have hdraw : draw.toNat = weightSum (branches.take i) := Nat.mod_eq_of_lt (by omega)
  have hbelow : draw.toNat < weightSum branches := by omega
  refine ⟨draw, ?_, ?_⟩
  · rwa [totalWeight_toNat hlen]
  · rw [selectIndex_eq_iff hlen hlt hbelow, hdraw]
    omega

end ChoiceGrammar.Expr
