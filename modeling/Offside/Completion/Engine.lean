import Offside.Completion.Caret
import Offside.Completion.Ranking

/-!
Completion: the proposals for a caret in a document, ranked and capped. Where a key starts, the properties below
the enclosing key path are proposed; behind a colon, the values of the property that the key names.
-/
namespace Offside

/-- What follows a completed key. -/
def Shape.valueText : Shape → Text
  | atomic => [' ']
  | map => ['\n']
  | sequence => ['\n', '-', ' ']

/-- The pattern for a query below a key path, and how the ids below that path begin. -/
def belowPath (path : KeyPath) (query : Text) : Text × Text :=
  if path.isEmpty then (query, []) else (path.dotted ++ '.' :: query, path.dotted ++ ['.'])

def keyProposals (o : Outline) (catalogue : Catalogue) (caret : CaretContext) (project : Option Text) :
    List Proposal :=
  match o.keyPath? (o.context caret.word.start caret.column) with
  | none => []
  | some path =>
    let (pattern, start) := belowPath path caret.query
    (catalogue.find pattern).filterMap fun found => do
      guard (start.isPrefixOf found.item.id)
      let rest ← (KeyPath.ofDotted found.item.id).dropStart? path
      guard !rest.isEmpty
      return .ofProperty found ⟨caret.word, caret.column, rest, found.item.shape.valueText⟩ project

def Property.values (p : Property) : List Text :=
  if p.isBoolean then ["true".toList, "false".toList] else p.hints

def valueProposals (o : Outline) (catalogue : Catalogue) (caret : CaretContext) (colon : Nat) : List Proposal :=
  match (o.keyAtColon? colon >>= o.keyPath?) >>= fun path => catalogue.get? path.dotted with
  | none => []
  | some property =>
    (property.values.zipIdx.filter fun (value, _) => (closeness? caret.query value).isSome).map
      fun (value, order) =>
        .ofValue value order ((Draft.empty.delete caret.word.start caret.word.stop).insert caret.word.start value)

/-- The catalogue is missing until it is loaded. -/
structure Engine where
  catalogue : Option Catalogue
  project : Option Text
  limit : Nat
  deriving Repr

namespace Engine

def defaultLimit : Nat := 200

/-- The proposals for a caret in no order yet. -/
def candidates (e : Engine) (catalogue : Catalogue) (doc : Document) (caret : CaretContext) : List Proposal :=
  match caret.place with
  | .key => keyProposals doc.outline catalogue caret e.project
  | .value colon => valueProposals doc.outline catalogue caret colon
  | .elsewhere => []

def proposals (e : Engine) (doc : Document) (caret : Nat) : List Proposal :=
  match e.catalogue, doc.caretContext? caret with
  | some catalogue, some context => (Proposal.sort (e.candidates catalogue doc context)).take e.limit
  | _, _ => []

end Engine
end Offside
