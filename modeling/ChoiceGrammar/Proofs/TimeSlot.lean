import Mathlib.Algebra.Ring.Int.Defs
import Mathlib.Algebra.Ring.Nat
import ChoiceGrammar.TimeSlot

/-!
# Shared seeds

Times within one slot have the same seed, however far from the epoch they are, since the rounding
comes before the cut to 64 bits. Before the cut takes effect, times of different slots have
different seeds, and a seed is the start of its slot.
-/

namespace ChoiceGrammar.TimeSlot

variable {t u slot : ℕ}

theorem roundDown_eq (hslot : 0 < slot) : roundDown t slot = slot * (t / slot) := by
  have hsplit := Nat.div_add_mod t slot
  rw [roundDown, if_neg (Nat.ne_of_gt hslot)]
  omega

theorem roundDown_le (t slot : ℕ) : roundDown t slot ≤ t := by
  unfold roundDown
  split
  · exact Nat.le_refl t
  · exact Nat.sub_le t (t % slot)

theorem lt_roundDown_add (hslot : 0 < slot) : t < roundDown t slot + slot := by
  rw [roundDown_eq hslot]
  exact Nat.lt_mul_div_succ t hslot

theorem dvd_roundDown (hslot : 0 < slot) : slot ∣ roundDown t slot := by
  rw [roundDown_eq hslot]
  exact Nat.dvd_mul_right slot (t / slot)

theorem roundDown_mono (hslot : 0 < slot) (h : t ≤ u) : roundDown t slot ≤ roundDown u slot := by
  rw [roundDown_eq hslot, roundDown_eq hslot]
  exact Nat.mul_le_mul_left slot (Nat.div_le_div_right h)

theorem roundDown_eq_iff (hslot : 0 < slot) :
    roundDown t slot = roundDown u slot ↔ t / slot = u / slot := by
  rw [roundDown_eq hslot, roundDown_eq hslot]
  exact Nat.mul_right_inj (Nat.ne_of_gt hslot)

theorem toNat_seed (time : ℤ) (slot : ℕ) :
    (seed time slot).toNat = roundDown time.toNat slot % 2 ^ 64 := by
  rw [seed, UInt64.toNat_ofNat']

theorem toNat_seed_of_lt {time : ℤ} (h : time.toNat < 2 ^ 64) (slot : ℕ) :
    (seed time slot).toNat = roundDown time.toNat slot := by
  rw [toNat_seed, Nat.mod_eq_of_lt (Nat.lt_of_le_of_lt (roundDown_le time.toNat slot) h)]

/-- A seed that is not cut is the start of the slot of its time. -/
theorem seed_bounds {time : ℤ} (hslot : 0 < slot) (h : time.toNat < 2 ^ 64) :
    slot ∣ (seed time slot).toNat ∧ (seed time slot).toNat ≤ time.toNat ∧
      time.toNat < (seed time slot).toNat + slot := by
  rw [toNat_seed_of_lt h]
  exact ⟨dvd_roundDown hslot, roundDown_le time.toNat slot, lt_roundDown_add hslot⟩

theorem seed_eq_iff {time time' : ℤ} (hslot : 0 < slot) (h : time.toNat < 2 ^ 64)
    (h' : time'.toNat < 2 ^ 64) :
    seed time slot = seed time' slot ↔ time.toNat / slot = time'.toNat / slot := by
  rw [← UInt64.toNat_inj, toNat_seed_of_lt h, toNat_seed_of_lt h', roundDown_eq_iff hslot]

/-- Times of one slot share their seed. Times below 64 bits share it with no other slot, their seeds
come in the order of the times, and each is the start of its slot. An empty slot leaves the time. -/
theorem seed_shared_within_slot (slot : ℕ) :
    (0 < slot → ∀ earlier later : ℤ, earlier ≤ later →
      (earlier.toNat / slot = later.toNat / slot → seed earlier slot = seed later slot) ∧
      (earlier.toNat < 2 ^ 64 → later.toNat < 2 ^ 64 →
        (seed earlier slot = seed later slot → earlier.toNat / slot = later.toNat / slot) ∧
          seed earlier slot ≤ seed later slot)) ∧
    (0 < slot → ∀ time : ℤ, time.toNat < 2 ^ 64 → slot ∣ (seed time slot).toNat ∧
      (seed time slot).toNat ≤ time.toNat ∧ time.toNat < (seed time slot).toNat + slot) ∧
    ∀ time : ℤ, (seed time 0).toNat = time.toNat % 2 ^ 64 := by
  refine ⟨?_, ?_, ?_⟩
  · intro hslot earlier later horder
    constructor
    · intro hsame
      rw [seed, seed, (roundDown_eq_iff hslot).mpr hsame]
    · intro hearlier hlater
      refine ⟨(seed_eq_iff hslot hearlier hlater).mp, ?_⟩
      rw [UInt64.le_iff_toNat_le, toNat_seed_of_lt hearlier, toNat_seed_of_lt hlater]
      exact roundDown_mono hslot (Int.toNat_le_toNat horder)
  · intro hslot time htime
    exact seed_bounds hslot htime
  · intro time
    rw [toNat_seed, roundDown, if_pos rfl]

/-- A time before the epoch has the seed of the first slot. So have two times of one slot that
begins before the limit of 64 bits and ends behind it. -/
theorem seed_shared_within_slot_limits :
    (seed (-7) 300 = seed 299 300 ∧ 299 < (seed 299 300).toNat + 300) ∧
      seed (2 ^ 64 - 1) (2 ^ 64 - 16) = seed (2 ^ 64 + 5) (2 ^ 64 - 16) := by
  obtain ⟨hpairs, hbounds, -⟩ := seed_shared_within_slot 300
  obtain ⟨hwide, -, -⟩ := seed_shared_within_slot (2 ^ 64 - 16)
  have hfirst := (hpairs (by decide) (-7) 299 (by decide)).1 (by decide)
  have hlast := (hwide (by decide) (2 ^ 64 - 1) (2 ^ 64 + 5) (by decide)).1 (by decide)
  exact ⟨⟨hfirst, (hbounds (by decide) 299 (by decide)).2.2⟩, hlast⟩

end ChoiceGrammar.TimeSlot
