import ChoiceGrammar.Random.Source

/-!
# Uniform draws

A draw below a total `w` takes a pair of words, multiplies its value by `w`, and keeps the upper
half of the 256-bit product. Values whose lower half lies past the acceptance zone are rejected and
the next pair is tried, so that every result is kept for the same number of values.
-/

namespace ChoiceGrammar.Draw

/-- Number of zero bits above the highest set bit of a 128-bit number. -/
def leadingZeros (w : BitVec 128) : Nat :=
  if w.toNat = 0 then 128 else 127 - w.toNat.log2

/-- The last lower half that is accepted. -/
def zone (total : BitVec 128) : BitVec 128 := (total <<< leadingZeros total) - 1

/-- Whether a value is kept: the lower half of its product with the total lies in the zone. -/
def accepts (total value : BitVec 128) : Bool := decide (value * total ≤ zone total)

/-- The upper half of the product of a value with the total. -/
def scaled (total value : BitVec 128) : BitVec 128 :=
  .ofNat 128 ((value.toNat * total.toNat) >>> 128)

/-- Draws below `total` from `position` on, in at most `attempts` attempts. Gives the number drawn
and the position of the first unread word. -/
def uniformWithin (source : WordSource) (total : BitVec 128) :
    (attempts position : Nat) → Option (BitVec 128 × Nat)
  | 0, _ => none
  | attempts + 1, position =>
      if accepts total (source.pair position) then
        some (scaled total (source.pair position), position + 2)
      else
        uniformWithin source total attempts (position + 2)

/-- Draws below `total` from `position` on. -/
def uniform (source : WordSource) (total : BitVec 128) (position : Nat) :
    Option (BitVec 128 × Nat) :=
  uniformWithin source total source.attempts position

end ChoiceGrammar.Draw
