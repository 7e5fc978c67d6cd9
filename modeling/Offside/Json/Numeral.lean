import Offside.Json.Basic

/-!
Numbers as they are written in JSON. The digits go into a 64-bit significand while they fit, which is then
scaled by a power of ten in double precision; a numeral beyond the largest double has no value.
-/
namespace Offside.Json

open Text

/-- `places` are the digits after the point; the exponent comes with its sign, true for minus. -/
structure Numeral where
  negative : Bool
  whole : Text
  places : Option Text
  exponent : Option (Bool × Text)
  deriving DecidableEq, Repr

namespace Numeral

/-- The digits at the front, if there are any, and the rest. -/
def digits? (t : Text) : Option (Text × Text) :=
  let digits := t.takeWhile Char.isDigit
  if digits.isEmpty then none else some (digits, t.dropWhile Char.isDigit)

def places? : Text → Option (Option Text × Text)
  | '.' :: rest => (digits? rest).map fun (digits, rest) => (some digits, rest)
  | rest => some (none, rest)

def exponent? : Text → Option (Option (Bool × Text) × Text)
  | c :: rest =>
    if c = 'e' ∨ c = 'E' then
      let (negative, rest) := match rest with
        | '+' :: rest => (false, rest)
        | '-' :: rest => (true, rest)
        | rest => (false, rest)
      (digits? rest).map fun (digits, rest) => (some (negative, digits), rest)
    else some (none, c :: rest)
  | [] => some (none, [])

/-- Reads a numeral off the front of a text. A zero starts no longer whole part. -/
def read? (t : Text) : Option (Numeral × Text) := do
  let (negative, t) := match t with
    | '-' :: rest => (true, rest)
    | _ => (false, t)
  let (whole, t) ← digits? t
  guard (whole.head? ≠ some '0' ∨ whole.length = 1)
  let (places, t) ← places? t
  let (exponent, t) ← exponent? t
  return (⟨negative, whole, places, exponent⟩, t)

def digitValue (c : Char) : Nat := c.toNat - '0'.toNat

/-- Appends digits to a significand up to the first that does not fit, and counts those left over. -/
def absorb (significand : Nat) : Text → Nat × Nat
  | [] => (significand, 0)
  | c :: digits =>
    let grown := 10 * significand + digitValue c
    if grown < UInt64.size then absorb grown digits else (significand, digits.length + 1)

def powerOfTen (n : Nat) : Binary64 := .ofNat (Decimal.tenTo n)

/-- Powers of ten go up to the largest that is a double. -/
def greatestPower : Nat := 308

/-- Divides by the greatest power until the rest is a power itself, or nothing is left. -/
def shrink (x : Binary64) (n : Nat) : Binary64 :=
  if n ≤ greatestPower then x.div (powerOfTen n)
  else if x.isZero then x
  else shrink (x.div (powerOfTen greatestPower)) (n - greatestPower)
termination_by n
decreasing_by simp only [greatestPower] at *; omega

/-- The magnitude `significand * 10 ^ exponent`. -/
def scaled? (significand : Nat) (exponent : Int) : Option Binary64 :=
  let x := Binary64.ofNat significand
  if exponent < 0 then some (shrink x exponent.natAbs)
  else if exponent ≤ greatestPower then
    let product := x.mul (powerOfTen exponent.toNat)
    if product.isInfinite then none else some product
  else if x.isZero then some x
  else none

/-- Exponents are read into a signed 32-bit word. -/
def greatestExponent : Nat := 0x7fffffff

def magnitude? (significand : Nat) (start : Int) : Option (Bool × Text) → Option Binary64
  | none => scaled? significand start
  | some (negative, digits) =>
    let exponent := Nat.ofDigitChars 10 digits 0
    if greatestExponent < exponent then
      if negative ∨ significand = 0 then some (.ofNat 0) else none
    else scaled? significand (if negative then start - exponent else start + exponent)

/-- A numeral without places and exponent stays whole if it fits a word; a negative zero never does. -/
def value? (n : Numeral) : Option Number :=
  let (significand, left) := absorb 0 n.whole
  let sign (x : Binary64) : Number := .double (if n.negative then x.neg else x)
  match n.places, n.exponent, left with
  | none, none, 0 =>
    if !n.negative then some (.whole significand)
    else if significand = 0 ∨ Binary64.signBit < significand then some (sign (.ofNat significand))
    else some (.whole (-significand))
  | places, exponent, left =>
    let places := places.getD []
    let (significand, unread) := absorb significand places
    (magnitude? significand (left - (places.length - unread : Nat)) exponent).map sign

end Numeral
end Offside.Json
