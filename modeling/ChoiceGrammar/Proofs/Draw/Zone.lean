import Mathlib.Algebra.Ring.Nat
import ChoiceGrammar.Random.Draw

/-!
# Zones and draws

The zone of a total is the total shifted up as far as it goes without losing a bit, less one. So it
is at least the total less one, and the least value whose product with the total reaches a range of
`2 ^ 128` products is accepted: every number below the total is drawn from some value.
-/

namespace ChoiceGrammar.Draw

variable {total draw : BitVec 128}

/-- The shift brings the highest set bit to the top. -/
theorem shifted_bounds (h : 0 < total.toNat) :
    2 ^ 127 ≤ total.toNat * 2 ^ leadingZeros total ∧
      total.toNat * 2 ^ leadingZeros total < 2 ^ 128 := by
  have hne : total.toNat ≠ 0 := Nat.ne_of_gt h
  have hlog : total.toNat.log2 < 128 := (Nat.log2_lt hne).mpr total.isLt
  have hzeros : leadingZeros total = 127 - total.toNat.log2 := by rw [leadingZeros, if_neg hne]
  have hlower : 2 ^ total.toNat.log2 ≤ total.toNat := Nat.log2_self_le hne
  have hupper : total.toNat < 2 ^ (total.toNat.log2 + 1) := Nat.lt_log2_self
  have hpos : 0 < 2 ^ leadingZeros total := Nat.two_pow_pos _
  constructor
  · calc
      2 ^ 127 = 2 ^ total.toNat.log2 * 2 ^ leadingZeros total := by
        rw [← Nat.pow_add]
        congr 1
        omega
      _ ≤ total.toNat * 2 ^ leadingZeros total := Nat.mul_le_mul_right _ hlower
  · calc
      total.toNat * 2 ^ leadingZeros total
          < 2 ^ (total.toNat.log2 + 1) * 2 ^ leadingZeros total :=
        Nat.mul_lt_mul_of_pos_right hupper hpos
      _ = 2 ^ 128 := by
        rw [← Nat.pow_add]
        congr 1
        omega

theorem zone_toNat (h : 0 < total.toNat) :
    (zone total).toNat = total.toNat * 2 ^ leadingZeros total - 1 := by
  obtain ⟨hlower, hupper⟩ := shifted_bounds h
  have hshift : (total <<< leadingZeros total).toNat = total.toNat * 2 ^ leadingZeros total := by
    rw [BitVec.toNat_shiftLeft, Nat.shiftLeft_eq, Nat.mod_eq_of_lt hupper]
  have hone : (1 : BitVec 128) ≤ total <<< leadingZeros total := by
    rw [BitVec.le_def, hshift]
    exact Nat.le_trans Nat.one_le_two_pow hlower
  rw [zone, BitVec.toNat_sub_of_le hone, hshift]
  rfl

theorem accepts_iff (h : 0 < total.toNat) (value : BitVec 128) :
    accepts total value = true ↔
      value.toNat * total.toNat % 2 ^ 128 < total.toNat * 2 ^ leadingZeros total := by
  obtain ⟨hlower, -⟩ := shifted_bounds h
  rw [accepts, decide_eq_true_iff, BitVec.le_def, BitVec.toNat_mul, zone_toNat h]
  omega

theorem accepts_zero (total : BitVec 128) : accepts total 0 = true := by
  simp [accepts, BitVec.le_def]

theorem scaled_toNat (total value : BitVec 128) :
    (scaled total value).toNat = value.toNat * total.toNat / 2 ^ 128 := by
  have : value.toNat * total.toNat / 2 ^ 128 < 2 ^ 128 := by
    apply Nat.div_lt_of_lt_mul
    exact Nat.mul_lt_mul'' value.isLt total.isLt
  simp only [scaled, Nat.shiftRight_eq_div_pow, BitVec.toNat_ofNat, Nat.mod_eq_of_lt this]

/-- The least value whose product with the total reaches the range of the draw. -/
def leastValue (total draw : BitVec 128) : BitVec 128 :=
  .ofNat 128 ((draw.toNat * 2 ^ 128 + (total.toNat - 1)) / total.toNat)

theorem leastValue_mul_bounds (h : draw.toNat < total.toNat) :
    draw.toNat * 2 ^ 128 ≤ (leastValue total draw).toNat * total.toNat ∧
      (leastValue total draw).toNat * total.toNat < draw.toNat * 2 ^ 128 + total.toNat := by
  have hlt := total.isLt
  have hpos : 0 < total.toNat := Nat.zero_lt_of_lt h
  have hfit : (draw.toNat * 2 ^ 128 + (total.toNat - 1)) / total.toNat < 2 ^ 128 := by
    rw [Nat.div_lt_iff_lt_mul hpos]
    have hnext : (draw.toNat + 1) * 2 ^ 128 ≤ total.toNat * 2 ^ 128 := Nat.mul_le_mul_right _ h
    rw [Nat.mul_comm (2 ^ 128)]
    omega
  have hvalue : (leastValue total draw).toNat =
      (draw.toNat * 2 ^ 128 + (total.toNat - 1)) / total.toNat := by
    rw [leastValue, BitVec.toNat_ofNat, Nat.mod_eq_of_lt hfit]
  have hdiv := Nat.div_add_mod (draw.toNat * 2 ^ 128 + (total.toNat - 1)) total.toNat
  have hmod := Nat.mod_lt (draw.toNat * 2 ^ 128 + (total.toNat - 1)) hpos
  rw [hvalue, Nat.mul_comm _ total.toNat]
  omega

theorem scaled_leastValue (h : draw.toNat < total.toNat) :
    scaled total (leastValue total draw) = draw := by
  obtain ⟨hlower, hupper⟩ := leastValue_mul_bounds h
  have hlt := total.isLt
  apply BitVec.eq_of_toNat_eq
  rw [scaled_toNat]
  apply Nat.div_eq_of_lt_le hlower
  omega

theorem accepts_leastValue (h : draw.toNat < total.toNat) :
    accepts total (leastValue total draw) = true := by
  obtain ⟨hlower, hupper⟩ := leastValue_mul_bounds h
  have hlt := total.isLt
  have hpos : 0 < total.toNat := Nat.zero_lt_of_lt h
  rw [accepts_iff hpos]
  calc
    (leastValue total draw).toNat * total.toNat % 2 ^ 128 < total.toNat := by omega
    _ ≤ total.toNat * 2 ^ leadingZeros total := Nat.le_mul_of_pos_right _ (Nat.two_pow_pos _)

end ChoiceGrammar.Draw
