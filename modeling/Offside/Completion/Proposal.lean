import Offside.Catalogue.Basic
import Offside.Completion.Change
import Offside.Display.Hover

/-! Proposals: what is offered, and the change that inserts it. -/
namespace Offside

inductive Offer where
  /-- A property, ranked by its score. -/
  | property (found : Match Property)
  /-- A plain value, ranked by its place among the values. -/
  | simple (value : Text) (order : Nat)
  deriving Repr

structure Proposal where
  offer : Offer
  change : Change
  /-- The project that a property was found in. -/
  project : Option Text
  /-- The first selection that an application has left. -/
  selection : Option Selection
  deriving Repr

structure HoverInfo where
  project : Option Text
  property : Property
  deriving Repr

namespace Proposal

def ofProperty (found : Match Property) (insertion : PathInsertion) (project : Option Text) : Proposal :=
  ⟨.property found, .path insertion, project, none⟩

def ofValue (value : Text) (order : Nat) (draft : Draft) : Proposal :=
  ⟨.simple value order, .ready draft, none, none⟩

def property? (p : Proposal) : Option Property :=
  match p.offer with
  | .property found => some found.item
  | .simple .. => none

def label (p : Proposal) : Text :=
  match p.offer with
  | .property found => found.item.id
  | .simple value _ => value

def segments (p : Proposal) : List Segment :=
  match p.offer with
  | .property found => found.item.segments
  | .simple value _ => [⟨.name, value⟩]

def display (p : Proposal) : Text := Segment.plain p.segments

def hoverText? (p : Proposal) : Option Text := p.property?.map Property.hover

def hoverInfo? (p : Proposal) : Option HoverInfo := p.property?.map fun property => ⟨p.project, property⟩

structure Application where
  document : Document
  returned : Option Selection
  /-- The proposal as it remembers the application. -/
  proposal : Proposal
  deriving Repr

/-- A change that is refused leaves the document as it is and selects nothing. -/
def apply (p : Proposal) (doc : Document) : Application :=
  match p.change.apply doc with
  | .error _ => ⟨doc, none, p⟩
  | .ok (doc, selection) => ⟨doc, selection, { p with selection := p.selection.or selection }⟩

end Proposal
end Offside
