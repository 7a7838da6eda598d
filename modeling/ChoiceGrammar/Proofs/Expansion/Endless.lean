import ChoiceGrammar.Proofs.Expansion.Outputs
import Mathlib.Algebra.Ring.Periodic

/-!
# Draws that never end

The stream of a seed repeats itself, since its block counter has 64 bits. So a draw that gives up on
it has seen every pair that it could ever see, and an expansion without a result has met a draw that
rejects for ever.
-/

namespace ChoiceGrammar

namespace Draw

variable {source : WordSource} {total : BitVec 128}

/-- A draw below `total` that starts at `position` rejects every pair that follows. -/
def RejectsForever (source : WordSource) (total : BitVec 128) (position : Nat) : Prop :=
  ∀ k, accepts total (source.pair (position + 2 * k)) = false

theorem RejectsForever.next {position : Nat} (h : RejectsForever source total position) :
    RejectsForever source total (position + 2) := by
  intro k
  have hk := h (k + 1)
  have hshift : position + 2 * (k + 1) = position + 2 + 2 * k := by omega
  rwa [hshift] at hk

theorem RejectsForever.uniformWithin_eq_none {position : Nat}
    (h : RejectsForever source total position) (attempts : Nat) :
    uniformWithin source total attempts position = none := by
  induction attempts generalizing position with
  | zero => rfl
  | succ attempts ih =>
      have hfirst : ¬ accepts total (source.pair position) = true := by
        have h0 := h 0
        rw [Nat.mul_zero, Nat.add_zero] at h0
        simp [h0]
      rw [uniformWithin, if_neg hfirst]
      exact ih h.next

end Draw

theorem ChaCha.periodic_word (seed : UInt64) : Function.Periodic (word seed) (2 ^ 67) := by
  intro position
  have hcounter : UInt64.ofNat ((position + 2 ^ 67) / 8) = .ofNat (position / 8) := by
    rw [← UInt64.toNat_inj, UInt64.toNat_ofNat', UInt64.toNat_ofNat']
    omega
  have hindex : (position + 2 ^ 67) % 8 = position % 8 := by omega
  simp only [word, hcounter, hindex]

theorem WordSource.periodic_pair_seeded (seed : UInt64) :
    Function.Periodic (seeded seed).pair (2 ^ 67) := by
  intro position
  have hlow := ChaCha.periodic_word seed position
  have hhigh := ChaCha.periodic_word seed (position + 1)
  rw [Nat.add_right_comm] at hhigh
  simp only [pair, seeded, hlow, hhigh]

namespace Draw

/-- On the stream of a seed a draw gives up only when it would never end. -/
theorem uniform_seeded_eq_none_iff (seed : UInt64) (total : BitVec 128) (position : Nat) :
    uniform (.seeded seed) total position = none ↔
      RejectsForever (.seeded seed) total position := by
  constructor
  · intro hnone k
    apply Bool.eq_false_iff.mpr
    intro haccepts
    have hpair : (WordSource.seeded seed).pair (position + 2 * k) =
        (WordSource.seeded seed).pair (position + 2 * (k % 2 ^ 66)) := by
      have hsplit : position + 2 * k = position + 2 * (k % 2 ^ 66) + k / 2 ^ 66 * 2 ^ 67 := by
        omega
      rw [hsplit]
      exact (WordSource.periodic_pair_seeded seed).nat_mul (k / 2 ^ 66) _
    rw [hpair] at haccepts
    have hseen : k % 2 ^ 66 < (WordSource.seeded seed).attempts :=
      Nat.mod_lt k (Nat.two_pow_pos 66)
    have hsome := uniformWithin_isSome hseen haccepts
    rw [← uniform, hnone] at hsome
    exact absurd hsome (by simp)
  · intro h
    exact h.uniformWithin_eq_none _

end Draw

/-- An expansion has no result only where a draw of one of its alternations never ends on the stream
of its seed. -/
theorem Expr.exists_rejectsForever_of_expand {e : Expr} {seed : UInt64} (h : e.expand seed = none) :
    ∃ first rest position, IsPart (alt first rest) e ∧
      Draw.RejectsForever (.seeded seed) (totalWeight (first :: rest)) position := by
  rw [expand, expandFrom, expandOnto_eq_walk, Option.map_eq_none_iff, Option.map_eq_none_iff] at h
  obtain ⟨first, rest, position, hpart, hdraw⟩ := exists_draw_of_walk_eq_none h
  exact ⟨first, rest, position, hpart, (Draw.uniform_seeded_eq_none_iff _ _ _).mp hdraw⟩

end ChoiceGrammar
