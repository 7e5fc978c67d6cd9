import Offside.Number.Binary64
import Offside.Text.Basic

/-!
Decimal text of doubles: the fewest digits that read back as the same double, and of those the nearest to
it. A `Layout` says how such digits are written.
-/
namespace Offside

open Text

/-- The number `0.d₁d₂… * 10 ^ point`. -/
structure Decimal where
  digits : Text
  point : Int
  deriving DecidableEq, Repr

/-- The power `10 ^ n`. -/
def Decimal.tenTo (n : Nat) : Nat := Nat.pow 10 n

/-- The reals that round to a double, as `low` to `high` around `mid` in units of `2 ^ exponent`. Both ends
belong to it or neither does. -/
structure Neighbourhood where
  low : Nat
  mid : Nat
  high : Nat
  exponent : Int
  closed : Bool
  deriving DecidableEq, Repr

/-- Below a power of two the doubles lie twice as dense, so the lower end is nearer. -/
def Binary64.neighbourhood (x : Binary64) : Neighbourhood :=
  let (m, e) := x.parts
  let low := if m = leadingBit ∧ leastExponent < e then 4 * m - 1 else 4 * m - 2
  ⟨low, 4 * m, 4 * m + 2, e - 2, m % 2 = 0⟩

namespace Neighbourhood

open Binary64 Decimal

/-- Multiplied by the first factor, a number in units of `2 ^ exponent` compares with one in units of `10 ^ p`
multiplied by the second. -/
def factors (h : Neighbourhood) (p : Int) : Nat × Nat :=
  (twoTo h.exponent.toNat * tenTo (-p).toNat, twoTo (-h.exponent).toNat * tenTo p.toNat)

/-- `c * 10 ^ p` rounds to the double. -/
def contains (h : Neighbourhood) (p : Int) (c : Nat) : Bool :=
  let (f, g) := h.factors p
  if h.closed then h.low * f ≤ c * g && c * g ≤ h.high * f else h.low * f < c * g && c * g < h.high * f

/-- No positive double is less than `10 ^ -324`. -/
def leastPower : Nat := 324

/-- The least `point` with `mid < 10 ^ point`. -/
def point (h : Neighbourhood) : Int :=
  let (f, den) := h.factors 0
  let num := h.mid * f
  if den ≤ num then (Nat.toDigits 10 (num / den)).length
  else 1 - (((List.range (leastPower + 1)).find? fun k => den ≤ num * tenTo k).getD 0 : Nat)

/-- A point of the grid of step `10 ^ p` that rounds to the double, the nearer one if two do. -/
def onGrid? (h : Neighbourhood) (tieUp : Bool) (p : Int) : Option Nat :=
  let (f, g) := h.factors p
  let below := h.mid * f / g
  match h.contains p below && 0 < below, h.contains p (below + 1) with
  | false, false => none
  | true, false => some below
  | false, true => some (below + 1)
  | true, true =>
    let gap := 2 * (h.mid * f % g)
    some (if g < gap ∨ (gap = g ∧ (tieUp ∨ below % 2 = 1)) then below + 1 else below)

/-- A decimal with at most `count` digits that rounds to the double, trailing zeros left out. -/
def ofDigitCount? (h : Neighbourhood) (tieUp : Bool) (count : Nat) : Option Decimal :=
  (h.onGrid? tieUp (h.point - count)).map fun c =>
    let digits := Nat.toDigits 10 c
    ⟨(digits.reverse.dropWhile (· == '0')).reverse, h.point + digits.length - count⟩

/-- The first grid with a hit has the fewest digits; seventeen always suffice. -/
def shortest (h : Neighbourhood) (tieUp : Bool) : Decimal :=
  ((List.range 17).findSome? fun k => h.ofDigitCount? tieUp (k + 1)).getD ⟨[], 0⟩

end Neighbourhood

/-- Numbers are written positionally while the decimal point falls between `lowest` and `highest`. -/
structure Layout where
  lowest : Int
  highest : Int
  /-- Of two shortest decimals at the same distance the larger one is written, not the even one. -/
  tieUp : Bool
  /-- An exponent that is not negative is written after a plus sign. -/
  plusSign : Bool
  deriving DecidableEq, Repr

namespace Layout

/-- At least one decimal place is kept. -/
def positional (d : Decimal) : Text :=
  if d.point ≤ 0 then ['0', '.'] ++ List.replicate (-d.point).toNat '0' ++ d.digits
  else
    let whole := d.point.toNat
    let places := d.digits.drop whole
    d.digits.take whole ++ List.replicate (whole - d.digits.length) '0' ++
      '.' :: if places.isEmpty then ['0'] else places

def ofInt (n : Int) : Text := (if n < 0 then ['-'] else []) ++ ofNat n.natAbs

def exponent (l : Layout) (n : Int) : Text :=
  'e' :: (if l.plusSign ∧ 0 ≤ n then ['+'] else []) ++ ofInt n

/-- One digit before the point, and no point without digits after it. -/
def scientific (l : Layout) (d : Decimal) : Text :=
  let places := d.digits.drop 1
  d.digits.take 1 ++ (if places.isEmpty then [] else '.' :: places) ++ l.exponent (d.point - 1)

def render (l : Layout) (x : Binary64) : Text :=
  let sign : Text := if x.isNegative then ['-'] else []
  if x.isNaN then "NaN".toList
  else if x.isInfinite then sign ++ "inf".toList
  else if x.isZero then sign ++ "0.0".toList
  else
    let d := x.neighbourhood.shortest l.tieUp
    sign ++ if l.lowest ≤ d.point ∧ d.point ≤ l.highest then positional d else l.scientific d

end Layout
end Offside
