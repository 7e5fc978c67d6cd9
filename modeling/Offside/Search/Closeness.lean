import Offside.Number.Binary64
import Offside.Text.Basic

/-!
How closely a typed pattern matches an identifier. The pattern's characters must occur in the identifier in
order, whatever their ASCII case; each takes its earliest place after the one before, and earns a weight by
where it stands. The closeness is the share of the greatest possible weight.
-/
namespace Offside

/-- What lies before a place: only matches, a match, or a character passed over. -/
inductive Streak where
  | leading
  | running
  | broken
  deriving DecidableEq, Repr

/-- Words start behind a separator, and where lower case changes to upper case. -/
def startsWord (last c : Char) : Bool :=
  ['.', '-', '_', '[', ']', ' '].contains last || (last.isLower && c.isUpper)

namespace Streak

def weight (s : Streak) (last c : Char) : Nat :=
  match s with
  | leading => 4
  | running => 3
  | broken => if startsWord last c then 2 else 1

def afterMatch : Streak → Streak
  | leading => leading
  | running | broken => running

end Streak

/-- The weight of a pattern in the rest of an identifier, if it matches. -/
def weigh? (s : Streak) (last : Char) : Text → Text → Option Nat
  | [], _ => some 0
  | _ :: _, [] => none
  | p :: pattern, c :: rest =>
    if c.toLower = p.toLower then
      (weigh? s.afterMatch c pattern rest).map (s.weight last c + ·)
    else weigh? .broken c (p :: pattern) rest

/-- The same weight added up in 32 bits, from the left and on top of what comes before. -/
def total? (s : Streak) (last : Char) (before : UInt32) : Text → Text → Option UInt32
  | [], _ => some before
  | _ :: _, [] => none
  | p :: pattern, c :: rest =>
    if c.toLower = p.toLower then
      total? s.afterMatch c (before + (s.weight last c).toUInt32) pattern rest
    else total? .broken c before (p :: pattern) rest

/-- The ratio `weight / full`. -/
structure Closeness where
  weight : Nat
  full : Nat
  deriving DecidableEq, Repr

/-- An empty pattern matches everything perfectly. -/
def closeness? (pattern id : Text) : Option Closeness :=
  if pattern.isEmpty then some ⟨1, 1⟩
  else (weigh? .leading ' ' pattern id).map (⟨·, 4 * id.length⟩)

def Closeness.score (c : Closeness) : Binary64 := .ofRatio c.weight c.full

/-- Zero stands for no match. -/
def matchScore (pattern id : Text) : Binary64 := ((closeness? pattern id).map Closeness.score).getD (.ofNat 0)

end Offside
