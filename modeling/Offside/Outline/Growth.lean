import Offside.Document.Draft
import Offside.Document.Indent
import Offside.Outline.Nesting

/-!
Growth: drafts that make a key path exist below a node with a single insertion, and that leave the caret where
its value goes. The outline need not be that of the document; then a step is refused when the document lacks
the place it looks for.
-/
namespace Offside

open Text Character

/-- One key per line, each indented one step further than the key before. The first one starts a line of its
own only if `fresh`. -/
def keyChain (br : LineBreak) (column : Nat) (fresh : Bool) : KeyPath → Text
  | [] => []
  | key :: keys =>
    (if fresh then br.indented column else []) ++ key ++ ':' :: keyChain br (column + indentStep) true keys

/-- What follows the last colon, kept apart from it by a blank unless it starts with white space. -/
def valuePart (column : Nat) (value : Text) : Text :=
  (if value.head?.all isWhite then [] else [' ']) ++ value.shiftLines column

def grownText (br : LineBreak) (column : Nat) (fresh : Bool) (path : KeyPath) (value : Text) : Text :=
  keyChain br column fresh path ++ valuePart (column + indentStep * path.length) value

namespace Outline

/-- The column of new keys below node `i`. -/
def childColumn (o : Outline) (i : Nat) : Nat :=
  match o.kindOf i with
  | .root => 0
  | kind => kind.column?.getD 0 + indentStep

/-- The caret goes to the first child, or else behind the colon and the blank after it. -/
def enterValue (o : Outline) (doc : Document) (i : Nat) (draft : Draft) : Except EditError Draft :=
  match o.firstChild? i, (o.kindOf i).colon? with
  | some (child, _), _ => .ok (draft.placeCaret child.start)
  | none, none => .ok draft
  | none, some colon => do
    let _ ← doc.charAt colon
    return draft.placeCaret (if doc.charAt? (colon + 1) = some ' ' then colon + 2 else colon + 1)

/-- The end of the last line of node `i`'s block that is neither blank nor a comment. The end of the document
stands in where there is none. -/
def growthOffset (o : Outline) (doc : Document) (i : Nat) : Except EditError Nat :=
  if o.kindOf i = .root ∧ (o.firstChild? i).isNone then .ok doc.length
  else do
    let above := doc.lines.take ((← doc.lineOf (o.blockEnd i)) + 1)
    let last := above.reverse.find? fun l => (indentation l.content).isSome
    return (last.map Line.stop).getD doc.length

/-- Adds the whole path behind the block of node `i`. -/
def growNew (o : Outline) (doc : Document) (i : Nat) (path : KeyPath) (value : Text) (draft : Draft) :
    Except EditError Draft := do
  let offset ← o.growthOffset doc i
  let fresh := !isBlank (← doc.lineBefore offset)
  return draft.insert offset (grownText doc.lineBreak (o.childColumn i) fresh path value)

/-- Follows the keys that exist below node `i` and adds the missing ones. -/
def grow (o : Outline) (doc : Document) (i : Nat) (path : KeyPath) (value : Text) (draft : Draft) :
    Except EditError Draft :=
  match o.follow i path with
  | (node, []) => o.enterValue doc node draft
  | (node, missing) => o.growNew doc node missing value draft

/-- Adds the whole path at `offset`, whatever exists. A line of its own is started only behind other text, and
never behind the dash of an entry. -/
def growAt (o : Outline) (doc : Document) (i : Nat) (path : KeyPath) (offset : Nat) (value : Text)
    (draft : Draft) : Except EditError Draft := do
  let lead ← doc.lineBefore offset
  let isEntry := match o.kindOf i with
    | .entry _ => true
    | _ => false
  let fresh := !isEntry && !isBlank lead
  let column := if fresh then o.childColumn i else lead.length
  return draft.insert offset (grownText doc.lineBreak column fresh path value)

end Outline

/-- Makes a path exist below the root. The document is unchanged if it exists already. -/
def Document.ensurePath (d : Document) (path : KeyPath) (value : Text) :
    Except EditError (Document × Option Selection) := do
  (← d.outline.grow d 0 path value .empty).apply d

end Offside
