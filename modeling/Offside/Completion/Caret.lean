import Offside.Document.Basic
import Offside.Document.Span

/-! What is being typed at a caret, judged by the line up to it. -/
namespace Offside

open Text Character

inductive CaretPlace where
  /-- Where a key starts, possibly behind the dashes of entries. -/
  | key
  /-- Behind a colon, at the given offset. -/
  | value (colon : Nat)
  | elsewhere
  deriving DecidableEq, Repr

/-- The query is the word up to the caret, and `word` spans all of it; `column` is where it starts on its line. -/
structure CaretContext where
  place : CaretPlace
  word : Span
  query : Text
  column : Nat
  deriving DecidableEq, Repr

def breaksWord (c : Char) : Bool := isWhite c || c == ':'

/-- Only spaces, and dashes that a space or the end follows. -/
def leadsToKey : Text → Bool
  | [] => true
  | ' ' :: rest => leadsToKey rest
  | '-' :: rest => rest.head?.all (· == ' ') && leadsToKey rest
  | _ => false

/-- A line starts at `start` with `lead`, and `query` is typed behind it. -/
def CaretPlace.of (start : Nat) (lead query : Text) : CaretPlace :=
  let settled := trimEnd lead
  if query.head? = some '#' then .elsewhere
  else if leadsToKey lead then .key
  else if settled.getLast? = some ':' then .value (start + bytes settled - 1)
  else .elsewhere

/-- None if the caret is at no boundary of the text. -/
def Document.caretContext? (d : Document) (caret : Nat) : Option CaretContext :=
  match d.lineBefore caret with
  | .error _ => none
  | .ok line =>
    let query := lastPart breaksWord line
    let lead := line.take (line.length - query.length)
    let rest := (after d.text caret).takeWhile (!breaksWord ·)
    some {
      place := .of (caret - bytes line) lead query
      word := ⟨caret - bytes query, caret + bytes rest⟩
      query
      column := bytes lead }

end Offside
