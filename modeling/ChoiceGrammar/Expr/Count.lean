import ChoiceGrammar.Expr.Basic

/-!
# Counting and choosing by weight

`count` is the number of ways to expand an expression, held in 64 bits and stuck at the largest
value. A branch of an alternation weighs as much as its count; weights are added in 128 bits, so
that two stuck branches keep separate ranges. `selectIndex` finds the branch whose range holds a
draw.
-/

namespace ChoiceGrammar

/-- The number itself where it fits into 64 bits, else the largest 64-bit value. -/
def saturate (n : Nat) : UInt64 := .ofNat (min n (UInt64.size - 1))

/-- Sums of branch counts. -/
abbrev Weight := BitVec 128

/-- A count as a weight of the same value. -/
def widen (count : UInt64) : Weight := .ofNat 128 count.toNat

@[simp] theorem widen_toNat (count : UInt64) : (widen count).toNat = count.toNat := by
  have := count.toNat_lt
  simp only [widen, BitVec.toNat_ofNat]
  exact Nat.mod_eq_of_lt (by omega)

namespace Expr

mutual
/-- Number of derivations: products over sequences, sums over alternations. -/
def count : Expr → UInt64
  | term _ => 1
  | empty => 1
  | seq items => countProduct items
  | alt first rest => saturate (widen first.count + countSum rest).toNat

def countProduct : List Expr → UInt64
  | [] => 1
  | item :: items => saturate (item.count.toNat * (countProduct items).toNat)

def countSum : List Expr → Weight
  | [] => 0
  | branch :: branches => widen branch.count + countSum branches
end

/-- The share of draws that a branch owns. -/
def weight (e : Expr) : Weight := widen e.count

/-- The exact sum of the branch weights. -/
def totalWeight (branches : List Expr) : Weight := (branches.map weight).foldr (· + ·) 0

theorem countSum_eq (branches : List Expr) : countSum branches = totalWeight branches := by
  induction branches with
  | nil => simp [countSum, totalWeight]
  | cons branch branches ih => simp [countSum, totalWeight, ih, weight]

theorem count_alt (first : Expr) (rest : List Expr) :
    (alt first rest).count = saturate (totalWeight (first :: rest)).toNat := by
  simp [count, countSum_eq, totalWeight, weight]

/-- Sum of the weights up to and including each branch, `before` what came earlier. -/
def runningTotals (before : Weight) : List Expr → List Weight
  | [] => []
  | branch :: branches =>
      (before + branch.weight) :: runningTotals (before + branch.weight) branches

@[simp] theorem length_runningTotals (before : Weight) (branches : List Expr) :
    (runningTotals before branches).length = branches.length := by
  induction branches generalizing before with
  | nil => rfl
  | cons branch branches ih => simp [runningTotals, ih]

/-- Place of the branch that owns `draw`: the first whose running total lies above it. A draw at
or past the total falls to the last branch. -/
def selectIndex (branches : List Expr) (draw : Weight) : Nat :=
  min ((runningTotals 0 branches).findIdx (draw < ·)) (branches.length - 1)

theorem selectIndex_lt (first : Expr) (rest : List Expr) (draw : Weight) :
    selectIndex (first :: rest) draw < (first :: rest).length := by
  simp only [selectIndex, List.length_cons]
  omega

/-- The branch that owns `draw`. -/
def select (first : Expr) (rest : List Expr) (draw : Weight) : Expr :=
  (first :: rest).get ⟨selectIndex (first :: rest) draw, selectIndex_lt first rest draw⟩

end Expr

end ChoiceGrammar
