import ChoiceGrammar.Proofs.Expansion.Outputs
import ChoiceGrammar.Proofs.Expansion.Shares

/-!
# Selection by running totals

In a tree whose alternations have fewer than `2 ^ 64` branches each, every count is positive. So the
running totals of an alternation never wrap and go up from branch to branch, and a search that
halves them finds the branch that owns a draw.
-/

namespace ChoiceGrammar

section Bisect

variable {α : Type} (below : α → Bool) (xs : List α)

/-- Looks for the first element that is not `below` from `base` on, at most `size` places away.
Every element that is looked at stands in the list. -/
def bisectFrom (base size : Nat) (hpos : 0 < size) (hfits : base + size ≤ xs.length) : Nat :=
  if 1 < size then
    if below (xs.get ⟨base + size / 2, by omega⟩) then
      bisectFrom (base + size / 2) (size - size / 2) (by omega) (by omega)
    else
      bisectFrom base (size - size / 2) (by omega) (by omega)
  else if below (xs.get ⟨base, by omega⟩) then base + 1
  else base
termination_by size

/-- Where the elements that are `below` end, if they all stand in front. -/
def bisect : Nat :=
  if h : 0 < xs.length then bisectFrom below xs 0 xs.length h (Nat.le_of_eq (Nat.zero_add _)) else 0

variable {below xs} {i : Nat}

theorem bisectFrom_eq (h : ∀ j : Fin xs.length, below (xs.get j) = true ↔ j < i)
    {base size : Nat} (hpos : 0 < size) (hfits : base + size ≤ xs.length) (hlower : base ≤ i)
    (hupper : i ≤ base + size) : bisectFrom below xs base size hpos hfits = i := by
  induction size using Nat.strongRecOn generalizing base with
  | ind size ih =>
      rw [bisectFrom]
      by_cases hmany : 1 < size
      · rw [if_pos hmany]
        have hmiddle := h ⟨base + size / 2, by omega⟩
        by_cases hbelow : below (xs.get ⟨base + size / 2, by omega⟩) = true
        · rw [if_pos hbelow]
          have hlt := hmiddle.mp hbelow
          exact ih _ (by omega) _ _ (Nat.le_of_lt hlt) (by omega)
        · rw [if_neg hbelow]
          have hge := mt hmiddle.mpr hbelow
          simp only at hge
          exact ih _ (by omega) _ _ hlower (by omega)
      · rw [if_neg hmany]
        have hlast := h ⟨base, by omega⟩
        by_cases hbelow : below (xs.get ⟨base, by omega⟩) = true
        · rw [if_pos hbelow]
          have hlt := hlast.mp hbelow
          simp only at hlt
          omega
        · rw [if_neg hbelow]
          have hge := mt hlast.mpr hbelow
          simp only at hge
          omega

theorem bisect_eq (h : ∀ j : Fin xs.length, below (xs.get j) = true ↔ j < i)
    (hi : i ≤ xs.length) : bisect below xs = i := by
  rw [bisect]
  by_cases hpos : 0 < xs.length
  · rw [dif_pos hpos]
    exact bisectFrom_eq h _ _ (Nat.zero_le i) (by omega)
  · rw [dif_neg hpos]
    omega

end Bisect

namespace Draw

theorem uniform_lt {source : WordSource} {total draw : BitVec 128} {position after : Nat}
    (hpos : 0 < total.toNat) (h : uniform source total position = some (draw, after)) :
    draw.toNat < total.toNat := by
  rw [uniform] at h
  generalize source.attempts = attempts at h
  induction attempts generalizing position with
  | zero => simp [uniformWithin] at h
  | succ attempts ih =>
      rw [uniformWithin] at h
      by_cases haccepts : accepts total (source.pair position) = true
      · rw [if_pos haccepts] at h
        obtain ⟨rfl, -⟩ : scaled total (source.pair position) = draw ∧ _ := by simpa using h
        exact scaled_toNat_lt hpos _
      · rw [if_neg haccepts] at h
        exact ih h

end Draw

namespace Expr

theorem IsPart.narrow {part e : Expr} (h : IsPart part e) (narrow : e.Narrow) : part.Narrow := by
  induction h with
  | refl => exact narrow
  | item hi _ ih =>
      have hitems : AllNarrow _ := narrow
      exact ih (allNarrow_iff.mp hitems _ hi)
  | branch hb _ ih =>
      have hbranches : AllNarrow (_ :: _) := narrow.2
      exact ih (allNarrow_iff.mp hbranches _ hb)

variable {before : Weight} {branches : List Expr} {i j : Nat}

theorem runningTotals_exact (hfit : before.toNat + weightSum branches < 2 ^ 128) {total : Weight}
    (h : (runningTotals before branches)[i]? = some total) :
    total.toNat = before.toNat + weightSum (branches.take (i + 1)) := by
  induction branches generalizing before i with
  | nil => simp [runningTotals] at h
  | cons branch branches ih =>
      rw [weightSum_cons] at hfit
      have hbranch : (before + branch.weight).toNat = before.toNat + branch.count.toNat := by
        rw [BitVec.toNat_add, weight, widen_toNat]
        exact Nat.mod_eq_of_lt (by omega)
      cases i with
      | zero =>
          obtain rfl : before + branch.weight = total := by simpa [runningTotals] using h
          simp [hbranch]
      | succ i =>
          have hnext : (before + branch.weight).toNat + weightSum branches < 2 ^ 128 := by omega
          have hrest := ih hnext (by simpa [runningTotals] using h)
          rw [hrest, hbranch, List.take_succ_cons, weightSum_cons, Nat.add_assoc]

theorem weightSum_take_lt (hpos : ∀ branch ∈ branches, 0 < branch.count.toNat) (hij : i < j)
    (hj : j ≤ branches.length) : weightSum (branches.take i) < weightSum (branches.take j) := by
  induction branches generalizing i j with
  | nil => simp at hj; omega
  | cons branch branches ih =>
      obtain ⟨j, rfl⟩ := Nat.exists_eq_succ_of_ne_zero (Nat.ne_zero_of_lt hij)
      have hbranch := hpos branch (by simp)
      cases i with
      | zero =>
          simp only [List.take_succ_cons, List.take_zero, weightSum_nil, weightSum_cons]
          omega
      | succ i =>
          have hrest := ih (fun b hb => hpos b (by simp [hb])) (Nat.lt_of_succ_lt_succ hij)
            (Nat.le_of_succ_le_succ hj)
          simp only [List.take_succ_cons, weightSum_cons]
          omega

section Alternation

variable {first : Expr} {rest : List Expr} {draw : Weight}

theorem count_pos_of_mem (narrow : (alt first rest).Narrow) :
    ∀ branch ∈ first :: rest, 0 < branch.count.toNat := by
  have hbranches : AllNarrow (first :: rest) := narrow.2
  intro branch hb
  exact count_pos (allNarrow_iff.mp hbranches branch hb)

theorem toNat_runningTotals (narrow : (alt first rest).Narrow) {total : Weight}
    (h : (runningTotals 0 (first :: rest))[i]? = some total) :
    total.toNat = weightSum ((first :: rest).take (i + 1)) := by
  have hlen : (first :: rest).length < 2 ^ 64 := narrow.1
  have hfit : (0 : Weight).toNat + weightSum (first :: rest) < 2 ^ 128 := by
    simpa using weightSum_lt hlen
  simpa using runningTotals_exact hfit h

theorem pairwise_runningTotals (narrow : (alt first rest).Narrow) :
    (runningTotals 0 (first :: rest)).Pairwise (· < ·) := by
  rw [List.pairwise_iff_getElem]
  intro i j hi hj hij
  have hfirst := toNat_runningTotals narrow (List.getElem?_eq_getElem hi)
  have hsecond := toNat_runningTotals narrow (List.getElem?_eq_getElem hj)
  rw [length_runningTotals] at hj
  rw [BitVec.lt_def, hfirst, hsecond]
  exact weightSum_take_lt (count_pos_of_mem narrow) (Nat.succ_lt_succ hij) hj

/-- As the totals go up, those at or below a draw are the ones in front of the first above it. -/
theorem le_draw_iff (narrow : (alt first rest).Narrow) (draw : Weight)
    (j : Fin (runningTotals 0 (first :: rest)).length) :
    decide ((runningTotals 0 (first :: rest)).get j ≤ draw) = true ↔
      j < (runningTotals 0 (first :: rest)).findIdx (draw < ·) := by
  have hsorted := List.pairwise_iff_getElem.mp (pairwise_runningTotals narrow)
  generalize runningTotals 0 (first :: rest) = totals at hsorted j
  rw [decide_eq_true_iff]
  constructor
  · intro hle
    apply Nat.lt_of_not_le
    intro hpast
    have hfound : totals.findIdx (draw < ·) < totals.length := Nat.lt_of_le_of_lt hpast j.isLt
    have habove : draw < totals[totals.findIdx (draw < ·)] := by
      simpa using List.findIdx_getElem (w := hfound)
    have hup : totals[totals.findIdx (draw < ·)] ≤ totals.get j := by
      rcases Nat.eq_or_lt_of_le hpast with heq | hlt
      · simp [heq]
      · exact BitVec.le_of_lt (hsorted _ _ hfound j.isLt hlt)
    simp only [BitVec.le_def, BitVec.lt_def] at hle habove hup
    omega
  · intro hlt
    have hbelow := List.not_of_lt_findIdx hlt
    simpa using hbelow

theorem selectIndex_eq_bisect (narrow : (alt first rest).Narrow) (draw : Weight) :
    selectIndex (first :: rest) draw =
      min (bisect (· ≤ draw) (runningTotals 0 (first :: rest))) rest.length := by
  rw [bisect_eq (le_draw_iff narrow draw) List.findIdx_le_length]
  rfl

theorem selectIndex_of_le (narrow : (alt first rest).Narrow)
    (h : weightSum (first :: rest) ≤ draw.toNat) :
    selectIndex (first :: rest) draw = rest.length := by
  have hnone : (runningTotals 0 (first :: rest)).findIdx (draw < ·) = (first :: rest).length := by
    rw [← length_runningTotals 0 (first :: rest), List.findIdx_eq_length]
    intro total htotal
    obtain ⟨i, hi⟩ := List.mem_iff_getElem?.mp htotal
    have hexact := toNat_runningTotals narrow hi
    have hbranch := (List.getElem?_eq_some_iff.mp hi).1
    rw [length_runningTotals] at hbranch
    obtain ⟨-, hle⟩ := weightSum_take_succ (List.getElem?_eq_getElem hbranch)
    rw [decide_eq_false_iff_not, BitVec.lt_def]
    omega
  rw [selectIndex, hnone]
  simp

/-- The running totals of an alternation, one for each branch, are the exact sums of the counts up
to each branch. They go up, and the last one is the positive total below which a draw lies. By
halving search a draw below the total finds the one branch in whose range it is, and any other draw
the last branch. -/
theorem select_by_running_totals {e : Expr} (narrow : e.Narrow) (part : IsPart (alt first rest) e) :
    let branches := first :: rest
    let totals := runningTotals 0 branches
    (totals.length = branches.length ∧
      (∀ i total, totals[i]? = some total → total.toNat = weightSum (branches.take (i + 1))) ∧
        totals.Pairwise (· < ·) ∧
          totals.getLast? = some (totalWeight branches) ∧ 1 ≤ (totalWeight branches).toNat) ∧
      (∀ source position draw after,
        Draw.uniform source (totalWeight branches) position = some (draw, after) →
          draw.toNat < weightSum branches) ∧
      ∀ draw : Weight,
        selectIndex branches draw = min (bisect (· ≤ draw) totals) (branches.length - 1) ∧
          branches[selectIndex branches draw]? = some (select first rest draw) ∧
          (draw.toNat < weightSum branches →
            ∀ i, selectIndex branches draw = i ↔
              i < branches.length ∧ weightSum (branches.take i) ≤ draw.toNat ∧
                draw.toNat < weightSum (branches.take (i + 1))) ∧
          (weightSum branches ≤ draw.toNat →
            selectIndex branches draw = branches.length - 1) := by
  intro branches totals
  have hnarrow : (alt first rest).Narrow := part.narrow narrow
  have hlen : branches.length < 2 ^ 64 := hnarrow.1
  have htotal : (totalWeight branches).toNat = weightSum branches := totalWeight_toNat hlen
  have hpos : 0 < weightSum branches := weightSum_pos hnarrow
  have hlast : totals.getLast? = some (totalWeight branches) := by
    have hzero : 0 + totalWeight branches = totalWeight branches := BitVec.zero_add _
    rw [← hzero]
    exact getLast?_runningTotals 0 first rest
  refine ⟨⟨length_runningTotals 0 branches, ?_, pairwise_runningTotals hnarrow, hlast, ?_⟩, ?_, ?_⟩
  · intro i total hi
    exact toNat_runningTotals hnarrow hi
  · rwa [htotal]
  · intro source position draw after hdraw
    rw [← htotal] at hpos ⊢
    exact Draw.uniform_lt hpos hdraw
  · intro draw
    have hindex : selectIndex branches draw < branches.length := selectIndex_lt first rest draw
    refine ⟨selectIndex_eq_bisect hnarrow draw, List.getElem?_eq_getElem hindex, ?_, ?_⟩
    · intro hdraw i
      constructor
      · rintro rfl
        exact ⟨hindex, (selectIndex_eq_iff hlen hindex hdraw).mp rfl⟩
      · rintro ⟨hi, hrange⟩
        exact (selectIndex_eq_iff hlen hi hdraw).mpr hrange
    · intro hdraw
      exact selectIndex_of_le hnarrow hdraw

/-- Two branches with stuck counts, inside a sequence, leave the third branch the last draw below
the total and all draws past it. -/
theorem select_by_running_totals_stuck :
    let branches := [wide "A", wide "B", .term "C"]
    let e : Expr := .seq [.term "so ", .alt (wide "A") [wide "B", .term "C"]]
    e.Narrow ∧ IsPart (.alt (wide "A") [wide "B", .term "C"]) e ∧
      (totalWeight branches).toNat = 2 ^ 65 - 1 ∧
        ∀ draw : Weight, selectIndex branches draw = 2 ↔ 2 ^ 65 - 2 ≤ draw.toNat := by
  intro branches e
  have hnarrow : e.Narrow :=
    ⟨trivial, ⟨by decide, narrow_wide "A", narrow_wide "B", trivial, trivial⟩, trivial⟩
  have hpart : IsPart (.alt (wide "A") [wide "B", .term "C"]) e := (IsPart.refl _).item (by simp)
  have hsum : weightSum branches = 2 ^ 65 - 1 := by simp [branches, count_wide, count]
  have hbefore : weightSum (branches.take 2) = 2 ^ 65 - 2 := by simp [branches, count_wide]
  have htotal : (totalWeight branches).toNat = 2 ^ 65 - 1 := by
    rw [← hsum]
    exact totalWeight_toNat (by decide)
  obtain ⟨-, -, hselect⟩ := select_by_running_totals hnarrow hpart
  refine ⟨hnarrow, hpart, htotal, ?_⟩
  intro draw
  obtain ⟨-, -, hbelow, hpast⟩ := hselect draw
  have hall : weightSum (branches.take 3) = 2 ^ 65 - 1 := hsum
  by_cases hdraw : draw.toNat < weightSum branches
  · have hthird := hbelow hdraw 2
    rw [hthird, hbefore, hall]
    rw [hsum] at hdraw
    simp only [List.length_cons, List.length_nil]
    omega
  · have hlast : selectIndex branches draw = 2 := hpast (Nat.le_of_not_lt hdraw)
    rw [hsum] at hdraw
    simp only [hlast, true_iff]
    omega

end Alternation

end Expr

end ChoiceGrammar
