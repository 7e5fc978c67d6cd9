/-!
Double precision by bit patterns. Rounding is exact: `ofRatio` gives the double nearest to a quotient of
naturals, a half going to the even neighbour, and products and quotients of doubles round once.
-/
namespace Offside

structure Binary64 where
  bits : UInt64
  deriving DecidableEq, Repr

namespace Binary64

/-- The integer nearest to `num / den`, a half going to the even neighbour. -/
def roundDiv (num den : Nat) : Nat :=
  let q := num / den
  let r := num % den
  if 2 * r < den ∨ (2 * r = den ∧ q % 2 = 0) then q else q + 1

/-- The power `2 ^ n`. -/
def twoTo (n : Nat) : Nat := 1 <<< n

/-- Factors that divide by `2 ^ e`: one for the numerator, one for the denominator. -/
def scaling (e : Int) : Nat × Nat := (twoTo (-e).toNat, twoTo e.toNat)

/-- The bit `2 ^ 52`, which leads the significand of a normal double and which its pattern leaves out. -/
def leadingBit : Nat := 0x10000000000000

def signBit : Nat := 0x8000000000000000

def infinity : Nat := 0x7ff * leadingBit

/-- Exponents of the last place go no lower than this one. -/
def leastExponent : Int := -1074

/-- The exponent of the last place of the double nearest to `num / den`. -/
def exponentFor (num den : Nat) : Int :=
  let e : Int := (num.log2 : Int) - den.log2 - 52
  let (up, down) := scaling e
  max leastExponent (if num * up / (den * down) < leadingBit then e - 1 else e)

/-- The double nearest to `num / den`. The fields of a pattern follow one another, so a significand that
rounds up to the next power of two carries into the exponent, and beyond the largest double into infinity. -/
def ofRatio (num den : Nat) : Binary64 :=
  if num = 0 then ⟨0⟩
  else
    let e := exponentFor num den
    let (up, down) := scaling e
    let pattern := (e - leastExponent).toNat * leadingBit + roundDiv (num * up) (den * down)
    ⟨(min pattern infinity).toUInt64⟩

def ofNat (n : Nat) : Binary64 := ofRatio n 1

def isNegative (x : Binary64) : Bool := signBit ≤ x.bits.toNat

/-- The pattern without the sign. -/
def magnitude (x : Binary64) : Nat := x.bits.toNat % signBit

def neg (x : Binary64) : Binary64 := ⟨x.bits ^^^ signBit.toUInt64⟩

def isZero (x : Binary64) : Bool := x.magnitude == 0

def isInfinite (x : Binary64) : Bool := x.magnitude == infinity

def isNaN (x : Binary64) : Bool := infinity < x.magnitude

/-- Significand and exponent of the magnitude: a finite double is `±m * 2 ^ e`. -/
def parts (x : Binary64) : Nat × Int :=
  let field : Nat := x.magnitude / leadingBit
  let fraction : Nat := x.magnitude % leadingBit
  if field = 0 then (fraction, leastExponent) else (fraction + leadingBit, leastExponent + (field - 1 : Nat))

/-- The product of two magnitudes. -/
def mul (x y : Binary64) : Binary64 :=
  let (m, e) := x.parts
  let (n, f) := y.parts
  ofRatio (m * n * twoTo (e + f).toNat) (twoTo (-(e + f)).toNat)

/-- The quotient of two magnitudes, the second not zero. -/
def div (x y : Binary64) : Binary64 :=
  let (m, e) := x.parts
  let (n, f) := y.parts
  ofRatio (m * twoTo (e - f).toNat) (n * twoTo (f - e).toNat)

/-- The place of a pattern in the total order of doubles: negative NaNs, negative numbers from the largest
magnitude down, both zeros apart, positive numbers, NaNs. -/
def rank (x : Binary64) : Int :=
  if x.isNegative then -(x.magnitude : Int) - 1 else x.magnitude

end Binary64
end Offside
