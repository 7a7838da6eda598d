import ChoiceGrammar.Proofs.Canonical.Alike
import ChoiceGrammar.Proofs.Counting.Ways
import ChoiceGrammar.Proofs.Expansion.Steering
import Mathlib.Data.Set.Card
import Mathlib.Order.Interval.Finset.Nat

/-!
# Shares of the values

Every number below a total is drawn from the same number of values, `2 ^ z` of them, where `z` is
the number of bits above the highest one of the total. They follow one another from the least on.
So each branch of an alternation has an exact share of the values that a pair of words can have.
-/

namespace ChoiceGrammar

namespace Draw

variable {total : BitVec 128} {n : Nat}

/-- The values from which a number is drawn. -/
def values (total : BitVec 128) (n : Nat) : Finset Nat :=
  Finset.Ico (leastValue total (.ofNat 128 n)).toNat
    ((leastValue total (.ofNat 128 n)).toNat + 2 ^ leadingZeros total)

theorem card_values (total : BitVec 128) (n : Nat) :
    (values total n).card = 2 ^ leadingZeros total := by
  rw [values, Nat.card_Ico, Nat.add_sub_cancel_left]

theorem scaled_toNat_lt (h : 0 < total.toNat) (value : BitVec 128) :
    (scaled total value).toNat < total.toNat := by
  rw [scaled_toNat]
  apply Nat.div_lt_of_lt_mul
  exact Nat.mul_lt_mul_of_pos_right value.isLt h

/-- A number is drawn when the product with the total comes early enough in its range. -/
theorem accepts_and_scaled_iff (h : 0 < total.toNat) (value : BitVec 128) :
    accepts total value = true ∧ (scaled total value).toNat = n ↔
      n * 2 ^ 128 ≤ value.toNat * total.toNat ∧
        value.toNat * total.toNat < n * 2 ^ 128 + total.toNat * 2 ^ leadingZeros total := by
  have hshifted := (shifted_bounds h).2
  have hsplit := Nat.div_add_mod (value.toNat * total.toNat) (2 ^ 128)
  rw [accepts_iff h, scaled_toNat]
  constructor
  · rintro ⟨haccepts, rfl⟩
    omega
  · rintro ⟨hlower, hupper⟩
    have hdraw : value.toNat * total.toNat / 2 ^ 128 = n := by
      apply Nat.div_eq_of_lt_le hlower
      rw [Nat.add_mul]
      omega
    rw [hdraw] at hsplit
    omega

theorem leastValue_ofNat_bounds (h : n < total.toNat) :
    n * 2 ^ 128 ≤ (leastValue total (.ofNat 128 n)).toNat * total.toNat ∧
      (leastValue total (.ofNat 128 n)).toNat * total.toNat < n * 2 ^ 128 + total.toNat := by
  have hn : (BitVec.ofNat 128 n).toNat = n := Nat.mod_eq_of_lt (Nat.lt_trans h total.isLt)
  have hdraw : (BitVec.ofNat 128 n).toNat < total.toNat := by rwa [hn]
  have hbounds := leastValue_mul_bounds hdraw
  rwa [hn] at hbounds

theorem leastValue_add_le_iff (h : n < total.toNat) (k m : Nat) :
    (leastValue total (.ofNat 128 n)).toNat + k ≤ m ↔
      n * 2 ^ 128 + total.toNat * k ≤ m * total.toNat := by
  obtain ⟨hlower, hupper⟩ := leastValue_ofNat_bounds h
  generalize (leastValue total (.ofNat 128 n)).toNat = least at hlower hupper
  constructor
  · intro hle
    calc
      n * 2 ^ 128 + total.toNat * k ≤ least * total.toNat + total.toNat * k :=
        Nat.add_le_add_right hlower _
      _ = (least + k) * total.toNat := by rw [Nat.add_mul, Nat.mul_comm k]
      _ ≤ m * total.toNat := Nat.mul_le_mul_right _ hle
  · intro hreach
    by_contra hless
    have hnext : (m + 1) * total.toNat ≤ (least + k) * total.toNat :=
      Nat.mul_le_mul_right _ (Nat.lt_of_not_le hless)
    rw [Nat.add_mul, Nat.one_mul, Nat.add_mul, Nat.mul_comm k] at hnext
    omega

theorem mem_values_iff_mul (h : n < total.toNat) {m : Nat} : m ∈ values total n ↔
    n * 2 ^ 128 ≤ m * total.toNat ∧
      m * total.toNat < n * 2 ^ 128 + total.toNat * 2 ^ leadingZeros total := by
  have hfirst := leastValue_add_le_iff h 0 m
  rw [Nat.add_zero, Nat.mul_zero, Nat.add_zero] at hfirst
  rw [values, Finset.mem_Ico, hfirst, ← Nat.not_le, leastValue_add_le_iff h, Nat.not_le]

theorem mem_values_iff (h : n < total.toNat) (value : BitVec 128) :
    value.toNat ∈ values total n ↔
      accepts total value = true ∧ (scaled total value).toNat = n := by
  rw [mem_values_iff_mul h, accepts_and_scaled_iff (Nat.zero_lt_of_lt h)]

theorem lt_of_mem_values (h : n < total.toNat) {m : Nat} (hm : m ∈ values total n) :
    m < 2 ^ 128 := by
  obtain ⟨-, hearly⟩ := (mem_values_iff_mul h).mp hm
  have hshifted := (shifted_bounds (Nat.zero_lt_of_lt h)).2
  apply Nat.lt_of_mul_lt_mul_left (a := total.toNat)
  calc
    total.toNat * m < n * 2 ^ 128 + total.toNat * 2 ^ leadingZeros total := by
      rwa [Nat.mul_comm]
    _ ≤ n * 2 ^ 128 + 2 ^ 128 := Nat.add_le_add_left (Nat.le_of_lt hshifted) _
    _ = (n + 1) * 2 ^ 128 := (Nat.succ_mul n _).symm
    _ ≤ total.toNat * 2 ^ 128 := Nat.mul_le_mul_right _ h

theorem exists_value_of_mem_values (h : n < total.toNat) {m : Nat} (hm : m ∈ values total n) :
    ∃ value : BitVec 128, value.toNat = m ∧ accepts total value = true ∧
      (scaled total value).toNat = n := by
  have hvalue : (BitVec.ofNat 128 m).toNat = m := Nat.mod_eq_of_lt (lt_of_mem_values h hm)
  refine ⟨.ofNat 128 m, hvalue, ?_⟩
  rwa [← mem_values_iff h, hvalue]

theorem pairwiseDisjoint_values {draws : Finset Nat} (h : ∀ n ∈ draws, n < total.toNat) :
    (draws : Set Nat).PairwiseDisjoint (values total) := by
  intro n hn k hk hne
  apply Finset.disjoint_left.mpr
  intro m hm hm'
  obtain ⟨value, rfl, -, hfirst⟩ := exists_value_of_mem_values (h n hn) hm
  have hsecond := ((mem_values_iff (h k hk) value).mp hm').2
  exact hne (hfirst.symm.trans hsecond)

theorem ncard_drawing {draws : Finset Nat} (h : ∀ n ∈ draws, n < total.toNat) :
    {value | accepts total value = true ∧ (scaled total value).toNat ∈ draws}.ncard =
      draws.card * 2 ^ leadingZeros total := by
  have himage : BitVec.toNat ''
      {value | accepts total value = true ∧ (scaled total value).toNat ∈ draws} =
        ↑(draws.biUnion (values total)) := by
    ext m
    rw [Finset.mem_coe, Finset.mem_biUnion]
    constructor
    · rintro ⟨value, ⟨haccepts, hn⟩, rfl⟩
      exact ⟨_, hn, (mem_values_iff (h _ hn) value).mpr ⟨haccepts, rfl⟩⟩
    · rintro ⟨n, hn, hm⟩
      obtain ⟨value, rfl, haccepts, rfl⟩ := exists_value_of_mem_values (h n hn) hm
      exact ⟨value, ⟨haccepts, hn⟩, rfl⟩
  rw [← Set.ncard_image_of_injective _ fun _ _ => BitVec.eq_of_toNat_eq, himage,
    Set.ncard_coe_finset, Finset.card_biUnion (pairwiseDisjoint_values h),
    Finset.sum_const_nat fun n _ => card_values total n]

theorem ncard_accepts (h : 0 < total.toNat) :
    {value | accepts total value = true}.ncard =
      total.toNat * 2 ^ leadingZeros total := by
  have hall : {value | accepts total value = true} = {value |
      accepts total value = true ∧
        (scaled total value).toNat ∈ Finset.range total.toNat} := by
    ext value
    apply (and_iff_left _).symm
    exact Finset.mem_range.mpr (scaled_toNat_lt h value)
  rw [hall, ncard_drawing fun n hn => Finset.mem_range.mp hn, Finset.card_range]

end Draw

namespace Expr

variable {first branch : Expr} {rest : List Expr}

theorem expandNth_of_getElem? (source : WordSource) {branches : List Expr} {i : Nat}
    (h : branches[i]? = some branch) (out : Output) :
    expandNth source branches i out = branch.expandOnto source out := by
  induction branches generalizing i with
  | nil => simp at h
  | cons first rest ih =>
      cases i with
      | zero =>
          obtain rfl : first = branch := by simpa using h
          rfl
      | succ i => exact ih (by simpa using h)

/-- With an accepted value ahead, an alternation is expanded as the branch that owns its draw. -/
theorem expandOnto_alt_of_accepts {source : WordSource} {out : Output}
    (hsource : 0 < source.attempts)
    (haccepts : Draw.accepts (totalWeight (first :: rest)) (source.pair out.position) = true)
    (hbranch : (first :: rest)[selectIndex (first :: rest)
      (Draw.scaled (totalWeight (first :: rest)) (source.pair out.position))]? = some branch) :
    (alt first rest).expandOnto source out =
      branch.expandOnto source { out with position := out.position + 2 } := by
  rw [expandOnto_alt, Draw.uniform_of_accepts hsource haccepts, Option.bind_some]
  exact expandNth_of_getElem? source hbranch _

/-- The values that are accepted and lead into the branch with this number. -/
def valuesInto (branches : List Expr) (i : Nat) : Set (BitVec 128) :=
  {value | Draw.accepts (totalWeight branches) value = true ∧
    selectIndex branches (Draw.scaled (totalWeight branches) value) = i}

theorem ncard_valuesInto {branches : List Expr} (hlen : branches.length < 2 ^ 64)
    (hpos : 0 < weightSum branches) {i : Nat} (hi : branches[i]? = some branch) :
    (valuesInto branches i).ncard =
      branch.count.toNat * 2 ^ Draw.leadingZeros (totalWeight branches) := by
  obtain ⟨hlt, -⟩ := List.getElem?_eq_some_iff.mp hi
  obtain ⟨hend, hle⟩ := weightSum_take_succ hi
  have htotal := totalWeight_toNat hlen
  let draws := Finset.Ico (weightSum (branches.take i)) (weightSum (branches.take (i + 1)))
  have hdraws : ∀ n ∈ draws, n < (totalWeight branches).toNat := by
    intro n hn
    rw [htotal]
    exact Nat.lt_of_lt_of_le (Finset.mem_Ico.mp hn).2 hle
  have hcard : draws.card = branch.count.toNat := by
    rw [Nat.card_Ico, hend, Nat.add_sub_cancel_left]
  have hinto : valuesInto branches i = {value |
      Draw.accepts (totalWeight branches) value = true ∧
        (Draw.scaled (totalWeight branches) value).toNat ∈ draws} := by
    ext value
    apply and_congr_right
    intro _
    rw [Finset.mem_Ico]
    apply selectIndex_eq_iff hlen hlt
    rw [← htotal]
    exact Draw.scaled_toNat_lt (htotal ▸ hpos) value
  rw [hinto, Draw.ncard_drawing hdraws, hcard]

theorem weightSum_pos (narrow : (alt first rest).Narrow) : 0 < weightSum (first :: rest) := by
  rw [weightSum_cons]
  exact Nat.add_pos_left (count_pos narrow.2.1) _

/-- A branch with count `c` is taken for `c * 2 ^ z` of the values that a pair of words can have,
where `z` is the number of zero bits above the total. An accepted value leads into one branch only,
and the expansion goes on there behind the pair. With `w` the exact total `w * 2 ^ z` values are
accepted in all, which is half of the values or more. -/
theorem branch_shares (narrow : (alt first rest).Narrow) :
    let branches := first :: rest
    let total := totalWeight branches
    let z := Draw.leadingZeros total
    total.toNat = weightSum branches ∧
      (∀ i branch, branches[i]? = some branch →
        (valuesInto branches i).ncard = branch.count.toNat * 2 ^ z ∧
          ∀ source out, 0 < source.attempts → source.pair out.position ∈ valuesInto branches i →
            (alt first rest).expandOnto source out =
              branch.expandOnto source { out with position := out.position + 2 }) ∧
      (∀ value, Draw.accepts total value = true →
        ∃ i < branches.length, ∀ j, value ∈ valuesInto branches j ↔ j = i) ∧
      {value | Draw.accepts total value = true}.ncard = weightSum branches * 2 ^ z ∧
      2 ^ 127 ≤ weightSum branches * 2 ^ z := by
  intro branches total z
  have hlen : branches.length < 2 ^ 64 := narrow.1
  have hpos : 0 < weightSum branches := weightSum_pos narrow
  have htotal : total.toNat = weightSum branches := totalWeight_toNat hlen
  refine ⟨htotal, ?_, ?_, ?_, ?_⟩
  · intro i branch hi
    refine ⟨ncard_valuesInto hlen hpos hi, ?_⟩
    rintro source out hsource ⟨haccepts, rfl⟩
    exact expandOnto_alt_of_accepts hsource haccepts hi
  · intro value haccepts
    refine ⟨selectIndex branches (Draw.scaled total value), selectIndex_lt first rest _, ?_⟩
    intro j
    exact ⟨fun h => h.2.symm, fun h => ⟨haccepts, h.symm⟩⟩
  · rw [Draw.ncard_accepts (htotal ▸ hpos), htotal]
  · rw [← htotal]
    exact (Draw.shifted_bounds (htotal ▸ hpos)).1

/-- Two branches with stuck counts take the total past 64 bits, and leave the third branch a share
of `2 ^ 63` values. -/
theorem branch_shares_stuck :
    let branches := [wide "A", wide "B", .term "C"]
    (alt (wide "A") [wide "B", .term "C"]).Narrow ∧ weightSum branches = 2 ^ 65 - 1 ∧
      (valuesInto branches 1).ncard = (2 ^ 64 - 1) * 2 ^ 63 ∧
        (valuesInto branches 2).ncard = 2 ^ 63 := by
  intro branches
  have hnarrow : (alt (wide "A") [wide "B", .term "C"]).Narrow :=
    ⟨by decide, narrow_wide "A", narrow_wide "B", trivial, trivial⟩
  have hsum : weightSum branches = 2 ^ 65 - 1 := by simp [branches, count_wide, count]
  obtain ⟨htotal, hshare, -, -, -⟩ := branch_shares hnarrow
  have hzeros : Draw.leadingZeros (totalWeight branches) = 63 := by
    rw [Draw.leadingZeros, htotal, hsum]
    decide
  obtain ⟨hsecond, -⟩ := hshare 1 (wide "B") rfl
  obtain ⟨hthird, -⟩ := hshare 2 (.term "C") rfl
  refine ⟨hnarrow, hsum, ?_, ?_⟩
  · rw [hsecond, hzeros, count_wide]
    rfl
  · rw [hthird, hzeros]
    rfl

end Expr

end ChoiceGrammar
