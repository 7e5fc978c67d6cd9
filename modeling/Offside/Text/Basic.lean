import Offside.Character.White

/-!
Texts and the positions in them. A position is a count of UTF-8 bytes, so it may fall inside a character;
`Boundary` holds of those that do not. `before` and `after` cut a text at any position, and a character
that the position splits goes to `after`.
-/
namespace Offside

open Character

abbrev Text := List Char

namespace Text

/-- Length in UTF-8 bytes. -/
def bytes : Text → Nat
  | [] => 0
  | c :: t => c.utf8Size + bytes t

/-- The characters that lie wholly within the first `n` bytes. -/
def before : Text → Nat → Text
  | [], _ => []
  | c :: t, n => if c.utf8Size ≤ n then c :: before t (n - c.utf8Size) else []

/-- What follows `before t n`. -/
def after : Text → Nat → Text
  | [], _ => []
  | c :: t, n => if c.utf8Size ≤ n then after t (n - c.utf8Size) else c :: t

/-- A character starts at byte `n`, or the text ends there. -/
def Boundary (t : Text) (n : Nat) : Prop := bytes (before t n) = n

instance (t : Text) (n : Nat) : Decidable (Boundary t n) := inferInstanceAs (Decidable (_ = _))

@[simp] theorem bytes_append (a b : Text) : bytes (a ++ b) = bytes a + bytes b := by
  induction a with
  | nil => simp [bytes]
  | cons c a ih => simp [bytes, ih, Nat.add_assoc]

@[simp] theorem before_append_after (t : Text) (n : Nat) : before t n ++ after t n = t := by
  induction t generalizing n with
  | nil => rfl
  | cons c t ih =>
    by_cases h : c.utf8Size ≤ n <;> simp [before, after, h, ih]

theorem before_zero (t : Text) : before t 0 = [] := by
  cases t with
  | nil => rfl
  | cons c t => simp [before, Nat.pos_iff_ne_zero.mp c.utf8Size_pos]

theorem before_bytes_append (a b : Text) : before (a ++ b) (bytes a) = a := by
  induction a with
  | nil => exact before_zero b
  | cons c a ih => simp [before, bytes, ih]

theorem after_bytes_append (a b : Text) : after (a ++ b) (bytes a) = b := by
  have cut := before_append_after (a ++ b) (bytes a)
  rw [before_bytes_append] at cut
  exact List.append_cancel_left cut

/-- A boundary is where a text can be cut in two. -/
theorem boundary_iff {t : Text} {n : Nat} : Boundary t n ↔ ∃ a b, t = a ++ b ∧ bytes a = n := by
  constructor
  · intro h
    exact ⟨before t n, after t n, (before_append_after t n).symm, h⟩
  · rintro ⟨a, b, rfl, rfl⟩
    rw [Boundary, before_bytes_append]

/-- Only white space, or nothing. -/
def isBlank (t : Text) : Bool := t.all isWhite

def trimStart (t : Text) : Text := t.dropWhile isWhite

def trimEnd (t : Text) : Text := (t.reverse.dropWhile isWhite).reverse

def trim (t : Text) : Text := trimEnd (trimStart t)

/-- The part after the last character that `stops` accepts, or the whole text without one. -/
def lastPart (stops : Char → Bool) (t : Text) : Text := (t.reverse.takeWhile (!stops ·)).reverse

def spaces (n : Nat) : Text := List.replicate n ' '

/-- Leading spaces of a line; none if the line is blank or holds only a comment. -/
def indentation (line : Text) : Option Nat :=
  let content := line.dropWhile (· == ' ')
  if isBlank content || content.head? == some '#' then none
  else some (line.takeWhile (· == ' ')).length

def ofNat (n : Nat) : Text := Nat.toDigits 10 n

end Text
end Offside
