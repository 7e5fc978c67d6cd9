import Offside.Document.Span
import Offside.Text.Basic

/-!
Single replacements in a text. Of several, all in the coordinates of the unchanged text and sorted, the last
one is made first, so that it shifts no offset of those before it.
-/
namespace Offside

open Text

structure Splice where
  start : Nat
  stop : Nat
  text : Text
  deriving DecidableEq, Repr

namespace Splice

def insertion (offset : Nat) (text : Text) : Splice := ⟨offset, offset, text⟩

def deletion (start stop : Nat) : Splice := ⟨start, stop, []⟩

/-- Earlier starts come first; of equal starts, earlier ends. -/
def le (a b : Splice) : Bool := a.start < b.start || (a.start == b.start && a.stop ≤ b.stop)

def apply (s : Splice) (t : Text) : Text := before t s.start ++ s.text ++ after t s.stop

/-- A caret behind the replaced range moves along with the text, and one strictly inside it falls back to its
start. -/
def rebase (s : Splice) (caret : Nat) : Nat :=
  if s.stop ≤ caret then caret + bytes s.text - (s.stop - s.start)
  else if s.start < caret then s.start
  else caret

/-- Makes sorted replacements that do not overlap, and takes a caret along. -/
def applyAll (splices : List Splice) (t : Text) (caret : Nat) : Text × Nat :=
  splices.foldr (fun s (t, caret) => (s.apply t, s.rebase caret)) (t, caret)

end Splice
end Offside
