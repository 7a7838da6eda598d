import Mathlib.Algebra.Ring.Nat
import ChoiceGrammar.Expr.Count

/-!
# Saturating products

A product held below a bound does not depend on how its factors are grouped, or on which of them
were held below the bound before. So the counts of a sequence may be multiplied in any grouping.
-/

namespace ChoiceGrammar

theorem saturate_toNat (n : Nat) : (saturate n).toNat = min n (2 ^ 64 - 1) := by
  have hsize : UInt64.size = 2 ^ 64 := rfl
  have hlt : min n (2 ^ 64 - 1) < 2 ^ 64 := by omega
  rw [saturate, hsize, UInt64.toNat_ofNat', Nat.mod_eq_of_lt hlt]

theorem min_mul_min_right (a b bound : Nat) : min (a * min b bound) bound = min (a * b) bound := by
  rcases Nat.eq_zero_or_pos a with rfl | ha
  · simp only [Nat.zero_mul]
  · rcases Nat.le_total b bound with hb | hb
    · rw [Nat.min_eq_left hb]
    · have h₁ : bound ≤ a * bound := Nat.le_mul_of_pos_left bound ha
      have h₂ : a * bound ≤ a * b := Nat.mul_le_mul_left a hb
      rw [Nat.min_eq_right hb, Nat.min_eq_right h₁, Nat.min_eq_right (Nat.le_trans h₁ h₂)]

theorem min_mul_min_left (a b bound : Nat) : min (min a bound * b) bound = min (a * b) bound := by
  rw [Nat.mul_comm, min_mul_min_right, Nat.mul_comm]

theorem saturate_mul_right (a b : Nat) : saturate (a * (saturate b).toNat) = saturate (a * b) := by
  rw [← UInt64.toNat_inj, saturate_toNat, saturate_toNat, saturate_toNat, min_mul_min_right]

theorem saturate_mul_left (a b : Nat) : saturate ((saturate a).toNat * b) = saturate (a * b) := by
  rw [Nat.mul_comm, saturate_mul_right, Nat.mul_comm]

@[simp] theorem saturate_self (n : UInt64) : saturate n.toNat = n := by
  have := n.toNat_lt
  rw [← UInt64.toNat_inj, saturate_toNat]
  omega

namespace Expr

@[simp] theorem countProduct_singleton (e : Expr) : countProduct [e] = e.count := by
  simp [countProduct]

theorem countProduct_append (xs ys : List Expr) :
    countProduct (xs ++ ys) = saturate ((countProduct xs).toNat * (countProduct ys).toNat) := by
  induction xs with
  | nil => simp [countProduct]
  | cons x xs ih =>
      simp only [List.cons_append, countProduct]
      rw [ih, saturate_mul_right, saturate_mul_left, Nat.mul_assoc]

/-- Multiplying from the left, as the items come, gives the same product. -/
theorem countProduct_eq_foldl (items : List Expr) :
    countProduct items =
      items.foldl (fun product item => saturate (product.toNat * item.count.toNat)) 1 := by
  -- the fold goes on from any product reached, not from one alone
  have from_start : ∀ start : UInt64, saturate (start.toNat * (countProduct items).toNat) =
      items.foldl (fun product item => saturate (product.toNat * item.count.toNat)) start := by
    induction items with
    | nil => simp [countProduct]
    | cons item items ih =>
        intro start
        rw [List.foldl_cons, ← ih, countProduct, saturate_mul_right, saturate_mul_left,
          Nat.mul_assoc]
  rw [← from_start, UInt64.toNat_one, Nat.one_mul, saturate_self]

end Expr

end ChoiceGrammar
