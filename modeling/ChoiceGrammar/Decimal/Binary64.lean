/-!
# Double precision numbers

Non-negative finite doubles as a significand and a power of two, in exact arithmetic. Every
operation rounds its exact result to the nearest double, a tie to the even significand, and has no
result past the largest double.
-/

namespace ChoiceGrammar

/-- The number `significand * 2 ^ exponent`. -/
structure Binary64 where
  significand : Nat
  exponent : Int
  deriving DecidableEq, Repr

namespace Binary64

def leastExponent : Int := -1074

def greatestExponent : Int := 971

/-- Significands have at most this many bits. -/
def precision : Nat := 53

def zero : Binary64 := ⟨0, leastExponent⟩

/-- The fraction `n * 2 ^ e / d`, as numerator and denominator. -/
def scaleBy (e : Int) (n d : Nat) : Nat × Nat := (n <<< e.toNat, d <<< (-e).toNat)

/-- The natural number nearest to `n / d`, a tie to the even one. -/
def nearest (n d : Nat) : Nat :=
  if d < 2 * (n % d) ∨ (d = 2 * (n % d) ∧ n / d % 2 = 1) then n / d + 1 else n / d

/-- The exponent under which the significand of `n / d` fills its bits, unless it is too small. -/
def exponentOf (n d : Nat) : Int :=
  let guess : Int := (n.log2 : Int) - d.log2
  let (a, b) := scaleBy (-guess) n d
  max ((if b ≤ a then guess else guess - 1) - (precision - 1)) leastExponent

/-- The double nearest to `n / d`. -/
def ofFraction (n d : Nat) : Option Binary64 :=
  if n = 0 then
    some zero
  else
    let e := exponentOf n d
    let (a, b) := scaleBy (-e) n d
    let m := nearest a b
    let rounded : Binary64 := if m = 1 <<< precision then ⟨m / 2, e + 1⟩ else ⟨m, e⟩
    if greatestExponent < rounded.exponent then none else some rounded

def ofNat (n : Nat) : Option Binary64 := ofFraction n 1

def mul (x y : Binary64) : Option Binary64 :=
  let (a, b) := scaleBy (x.exponent + y.exponent) (x.significand * y.significand) 1
  ofFraction a b

def div (x y : Binary64) : Option Binary64 :=
  let (a, b) := scaleBy (x.exponent - y.exponent) x.significand y.significand
  ofFraction a b

end Binary64

end ChoiceGrammar
