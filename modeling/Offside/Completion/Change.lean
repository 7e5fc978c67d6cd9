import Offside.Document.Span
import Offside.Outline.Growth

/-! What a proposal does to a document. -/
namespace Offside

/-- Puts a key path in the place of a word. The path is relative to the container that would enclose a line at
`column`. -/
structure PathInsertion where
  word : Span
  column : Nat
  path : KeyPath
  /-- Follows the last key. -/
  value : Text
  deriving DecidableEq, Repr

namespace PathInsertion

/-- Keys that exist already are used, except one on the line that is being typed. -/
def reuses (p : PathInsertion) (o : Outline) (context : Nat) : Bool :=
  match p.path.head?.bind (o.childNamed? context) >>= (o.nodes[·]?) with
  | none => false
  | some n => !(n.start ≤ p.word.start && p.word.start ≤ n.stop)

def draft (p : PathInsertion) (doc : Document) : Except EditError Draft :=
  let o := doc.outline
  let context := o.context p.word.start p.column
  let cleared := Draft.empty.delete p.word.start p.word.stop
  if p.reuses o context then o.grow doc context p.path p.value cleared
  else o.growAt doc context p.path p.word.start p.value cleared

end PathInsertion

/-- A draft that is ready, or a path to insert into whatever the document holds by then. -/
inductive Change where
  | ready (draft : Draft)
  | path (insertion : PathInsertion)
  deriving DecidableEq, Repr

def Change.apply (c : Change) (doc : Document) : Except EditError (Document × Option Selection) := do
  match c with
  | ready draft => draft.apply doc
  | path insertion => (← insertion.draft doc).apply doc

end Offside
