import Offside.Document.Basic

/-! Indentation of text that is put into a document. -/
namespace Offside

open Text

/-- How far a key's nested keys stand right of it. -/
def indentStep : Nat := 2

/-- Starts a new line that is indented by `n` spaces. -/
def LineBreak.indented (b : LineBreak) (n : Nat) : Text := b.text ++ spaces n

/-- Shifts every line but the first right by `n` spaces, an empty last line included. -/
def Text.shiftLines (t : Text) (n : Nat) : Text :=
  t.flatMap fun c => if c = '\n' then c :: spaces n else [c]

end Offside
