import Offside.Document.Basic
import Offside.Document.Splice

/-!
Drafts: changes recorded against one state of a document, and a hint where the caret goes. All of them are
checked together before any is made, so a draft applies as a whole or not at all.
-/
namespace Offside

open Text

/-- Offsets are those of the unchanged document. -/
inductive CaretHint where
  | atOffset (offset : Nat)
  /-- Right after the text inserted at this offset. -/
  | afterInsertion (offset : Nat)
  deriving DecidableEq, Repr

def CaretHint.offset : CaretHint → Nat
  | atOffset offset | afterInsertion offset => offset

structure Draft where
  splices : List Splice
  caret : Option CaretHint
  deriving DecidableEq, Repr

namespace Draft

def empty : Draft := ⟨[], none⟩

/-- The caret follows the latest insertion unless it was placed. -/
def insert (d : Draft) (offset : Nat) (text : Text) : Draft where
  splices := d.splices ++ [.insertion offset text]
  caret := match d.caret with
    | some (.atOffset o) => some (.atOffset o)
    | _ => some (.afterInsertion offset)

/-- An empty deletion is not recorded. -/
def delete (d : Draft) (start stop : Nat) : Draft :=
  if start = stop then d else { d with splices := d.splices ++ [.deletion start stop] }

def placeCaret (d : Draft) (offset : Nat) : Draft := { d with caret := some (.atOffset offset) }

def hasChanges (d : Draft) : Bool := !d.splices.isEmpty

def isEmpty (d : Draft) : Bool := d.splices.isEmpty && d.caret.isNone

/-- The order in which the replacements stand in the document; at one offset insertions keep theirs. -/
def sorted (d : Draft) : List Splice := d.splices.mergeSort Splice.le

/-- Sorted replacements must be ranges between characters, each from where the one before it ends. -/
def check (t : Text) (reached : Nat) : List Splice → Except EditError Unit
  | [] => .ok ()
  | s :: rest =>
    if s.stop < s.start ∨ ¬Boundary t s.start ∨ ¬Boundary t s.stop then
      .error (.invalidRange s.start s.stop)
    else if s.start < reached then .error (.overlapping s.start)
    else check t s.stop rest

/-- The changed text and the caret in it, if the draft places one. -/
def preview (d : Draft) (doc : Document) : Except EditError (Text × Option Nat) := do
  check doc.text 0 d.sorted
  match d.caret with
  | none => return ((Splice.applyAll d.sorted doc.text 0).1, none)
  | some hint =>
    doc.checkOffset hint.offset
    let (text, caret) := Splice.applyAll d.sorted doc.text hint.offset
    return (text, some caret)

/-- The changed document and the selection in it. -/
def apply (d : Draft) (doc : Document) : Except EditError (Document × Option Selection) := do
  let (text, caret) ← d.preview doc
  return (⟨text⟩, caret.map .caret)

end Draft
end Offside
