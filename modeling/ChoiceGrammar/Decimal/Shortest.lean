import ChoiceGrammar.Decimal.Binary64

/-!
# Shortest decimal text

The text of a double has the fewest digits that read back as the same double, and among those the
digits nearest to its value. The points of a decimal grid that read back form an interval around the
value, its ends included when the significand is even; the coarsest grid with a point in the
interval gives the digits.
-/

namespace ChoiceGrammar.Binary64

/-- The point `d * 10 ^ k`, multiplied by the powers that make it and `quarterUnits` whole. -/
def pointUnits (x : Binary64) (k : Int) (d : Nat) : Nat :=
  (d * Nat.pow 10 k.toNat) <<< (2 - x.exponent).toNat

/-- The number `q * 2 ^ (x.exponent - 2)`, counted in quarters of the last binary place and
multiplied by the same powers. -/
def quarterUnits (x : Binary64) (k : Int) (q : Nat) : Nat :=
  (q * Nat.pow 10 (-k).toNat) <<< (x.exponent - 2).toNat

/-- Quarters of the last place down to the lower end of the interval: the doubles below a power of
two lie closer together. -/
def lowerGap (x : Binary64) : Nat :=
  if x.significand = 1 <<< (precision - 1) ∧ leastExponent < x.exponent then 1 else 2

/-- Whether `d * 10 ^ k` reads back as `x`. -/
def readsBack (x : Binary64) (k : Int) (d : Nat) : Bool :=
  let point := x.pointUnits k d
  let lower := x.quarterUnits k (4 * x.significand - x.lowerGap)
  let upper := x.quarterUnits k (4 * x.significand + 2)
  if x.significand % 2 = 0 then lower ≤ point ∧ point ≤ upper else lower < point ∧ point < upper

/-- The point of the grid of multiples of `10 ^ k` that reads back as `x` and is nearest to it, a
tie to the even one. -/
def onGrid? (x : Binary64) (k : Int) : Option Nat :=
  let value := x.quarterUnits k (4 * x.significand)
  let below := value / x.pointUnits k 1
  let nearBelow :=
    let middle := x.pointUnits k below + x.pointUnits k (below + 1)
    2 * value < middle ∨ (2 * value = middle ∧ below % 2 = 0)
  match x.readsBack k below, x.readsBack k (below + 1) with
  | true, true => some (if nearBelow then below else below + 1)
  | true, false => some below
  | false, true => some (below + 1)
  | false, false => none

/-- Digits `d` and scale `k` of the shortest decimal `d * 10 ^ k` that reads back as `x`. -/
def shortest (x : Binary64) : Nat × Int :=
  if x.significand = 0 then
    (0, 0)
  else
    let grids := (List.range 660).map fun (i : Nat) => (309 : Int) - i
    (grids.findSome? fun k => (x.onGrid? k).map (·, k)).getD (0, 0)

def digits (n : Nat) : List Char := Nat.toDigits 10 n

/-- Powers of ten of the leading digit that are written without an exponent. -/
def isPositional (leading : Int) : Bool := -5 ≤ leading ∧ leading ≤ 15

/-- Positional text, always with a decimal point and a digit on each side. -/
def positional (d : Nat) (k : Int) : List Char :=
  let ds := digits d
  if 0 ≤ k then
    ds ++ List.replicate k.toNat '0' ++ ['.', '0']
  else
    let ds := List.replicate ((-k).toNat + 1 - ds.length) '0' ++ ds
    let whole := ds.length - (-k).toNat
    ds.take whole ++ '.' :: ds.drop whole

/-- Text with an exponent, which has its sign. -/
def scientific (d : Nat) (k : Int) : List Char :=
  let ds := digits d
  let leading := k + (ds.length - 1 : Nat)
  let mantissa :=
    match ds with
    | first :: second :: rest => first :: '.' :: second :: rest
    | ds => ds
  mantissa ++ 'e' :: (if leading < 0 then '-' else '+') :: digits leading.natAbs

def text (x : Binary64) : List Char :=
  let (d, k) := x.shortest
  if isPositional (k + ((digits d).length - 1 : Nat)) then positional d k else scientific d k

end ChoiceGrammar.Binary64
