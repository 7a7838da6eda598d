import ChoiceGrammar.Proofs.Counting.Saturation
import ChoiceGrammar.Proofs.Counting.Weights

/-!
# Exact counts

`ways` counts derivations without a bound. Where no alternation has too many branches for 64 bits,
`count` is `ways` held below `2 ^ 64`, however often it was held there on the way up.
-/

namespace ChoiceGrammar.Expr

mutual
/-- The exact number of derivations. -/
def ways : Expr → Nat
  | term _ => 1
  | empty => 1
  | seq items => waysProduct items
  | alt first rest => first.ways + waysSum rest

def waysProduct : List Expr → Nat
  | [] => 1
  | item :: items => item.ways * waysProduct items

def waysSum : List Expr → Nat
  | [] => 0
  | branch :: branches => branch.ways + waysSum branches
end

mutual
theorem ways_pos (e : Expr) : 0 < e.ways := by
  cases e with
  | term _ => exact Nat.one_pos
  | empty => exact Nat.one_pos
  | seq items => exact waysProduct_pos items
  | alt first rest => exact Nat.add_pos_left (ways_pos first) _

theorem waysProduct_pos (items : List Expr) : 0 < waysProduct items := by
  cases items with
  | nil => exact Nat.one_pos
  | cons item items => exact Nat.mul_pos (ways_pos item) (waysProduct_pos items)
end

theorem ways_le_waysProduct (item : Expr) (items : List Expr) :
    item.ways ≤ waysProduct (item :: items) ∧ waysProduct items ≤ waysProduct (item :: items) :=
  ⟨Nat.le_mul_of_pos_right item.ways (waysProduct_pos items),
    Nat.le_mul_of_pos_left (waysProduct items) (ways_pos item)⟩

theorem ways_le_waysSum {branches : List Expr} {branch : Expr} {i : Nat}
    (h : branches[i]? = some branch) : branch.ways ≤ waysSum branches := by
  induction branches generalizing i with
  | nil => simp at h
  | cons first rest ih =>
      rw [waysSum]
      cases i with
      | zero =>
          obtain rfl : first = branch := by simpa using h
          exact Nat.le_add_right _ _
      | succ i => exact Nat.le_add_left_of_le (ih (by simpa using h))

theorem length_le_waysSum (branches : List Expr) : branches.length ≤ waysSum branches := by
  induction branches with
  | nil => exact Nat.le_refl 0
  | cons branch branches ih =>
      have := ways_pos branch
      simp only [List.length_cons, waysSum]
      omega

mutual
/-- Every alternation has fewer branches than 64 bits can count. -/
def Narrow : Expr → Prop
  | term _ => True
  | empty => True
  | seq items => AllNarrow items
  | alt first rest => rest.length + 1 < 2 ^ 64 ∧ first.Narrow ∧ AllNarrow rest

def AllNarrow : List Expr → Prop
  | [] => True
  | e :: es => e.Narrow ∧ AllNarrow es
end

theorem allNarrow_iff {es : List Expr} : AllNarrow es ↔ ∀ e ∈ es, e.Narrow := by
  induction es with
  | nil => simp [AllNarrow]
  | cons e es ih => simp [AllNarrow, ih]

mutual
theorem narrow_of_ways (e : Expr) (h : e.ways < 2 ^ 64) : e.Narrow := by
  cases e with
  | term _ => trivial
  | empty => trivial
  | seq items => exact allNarrow_of_waysProduct items h
  | alt first rest =>
      have hf := ways_pos first
      have hl := length_le_waysSum rest
      simp only [ways] at h
      exact ⟨by omega, narrow_of_ways first (by omega), allNarrow_of_waysSum rest (by omega)⟩

theorem allNarrow_of_waysProduct (items : List Expr) (h : waysProduct items < 2 ^ 64) :
    AllNarrow items := by
  cases items with
  | nil => trivial
  | cons item items =>
      obtain ⟨hi, his⟩ := ways_le_waysProduct item items
      exact ⟨narrow_of_ways item (Nat.lt_of_le_of_lt hi h),
        allNarrow_of_waysProduct items (Nat.lt_of_le_of_lt his h)⟩

theorem allNarrow_of_waysSum (branches : List Expr) (h : waysSum branches < 2 ^ 64) :
    AllNarrow branches := by
  cases branches with
  | nil => trivial
  | cons branch branches =>
      simp only [waysSum] at h
      exact ⟨narrow_of_ways branch (by omega), allNarrow_of_waysSum branches (by omega)⟩
end

mutual
theorem count_toNat (e : Expr) (h : e.Narrow) : e.count.toNat = min e.ways (2 ^ 64 - 1) := by
  cases e with
  | term _ => rfl
  | empty => rfl
  | seq items => exact countProduct_toNat items h
  | alt first rest =>
      have hf := count_toNat first h.2.1
      have hr := min_weightSum rest h.2.2
      have ht : (totalWeight (first :: rest)).toNat = weightSum (first :: rest) :=
        totalWeight_toNat h.1
      rw [count_alt, saturate_toNat, ht]
      simp only [ways, weightSum_cons]
      omega

theorem countProduct_toNat (items : List Expr) (h : AllNarrow items) :
    (countProduct items).toNat = min (waysProduct items) (2 ^ 64 - 1) := by
  cases items with
  | nil => rfl
  | cons item items =>
      rw [countProduct, saturate_toNat, count_toNat item h.1, countProduct_toNat items h.2,
        min_mul_min_right, min_mul_min_left, waysProduct]

theorem min_weightSum (branches : List Expr) (h : AllNarrow branches) :
    min (weightSum branches) (2 ^ 64 - 1) = min (waysSum branches) (2 ^ 64 - 1) := by
  cases branches with
  | nil => rfl
  | cons branch branches =>
      have hb := count_toNat branch h.1
      have hs := min_weightSum branches h.2
      simp only [waysSum, weightSum_cons]
      omega
end

theorem count_pos {e : Expr} (h : e.Narrow) : 0 < e.count.toNat := by
  have hways := ways_pos e
  rw [count_toNat e h]
  omega

theorem count_eq_ways {e : Expr} (h : e.ways < 2 ^ 64) : e.count.toNat = e.ways := by
  rw [count_toNat e (narrow_of_ways e h)]
  omega

theorem weightSum_eq_waysSum {branches : List Expr} (h : waysSum branches < 2 ^ 64) :
    weightSum branches = waysSum branches := by
  induction branches with
  | nil => rfl
  | cons branch branches ih =>
      simp only [waysSum] at h
      rw [weightSum_cons, waysSum, count_eq_ways (by omega), ih (by omega)]

theorem waysProduct_replicate (n : Nat) (e : Expr) :
    waysProduct (.replicate n e) = e.ways ^ n := by
  induction n with
  | zero => rfl
  | succ n ih => rw [List.replicate_succ, waysProduct, ih, Nat.pow_succ']

/-- A letter and 64 choices: one derivation more than a count can say. -/
def wide (letter : String) : Expr :=
  seq (term letter :: .replicate 64 (alt (term "x") [term "y"]))

theorem narrow_wide (letter : String) : (wide letter).Narrow := by
  apply allNarrow_iff.mpr
  simp [Narrow, AllNarrow]

theorem count_wide (letter : String) : (wide letter).count = 18446744073709551615 := by
  have hways : (wide letter).ways = 2 ^ 64 := by
    rw [wide, ways, waysProduct, waysProduct_replicate]
    simp [ways, waysSum]
  apply UInt64.toNat_inj.mp
  rw [count_toNat _ (narrow_wide letter), hways]
  rfl

end ChoiceGrammar.Expr
