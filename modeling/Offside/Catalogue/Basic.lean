import Offside.Catalogue.Metadata
import Offside.Search.Matching

/-! Catalogues of properties, each of them kept under its id. -/
namespace Offside

structure Catalogue where
  properties : Dictionary Property
  filed : ∀ entry ∈ properties.entries, entry.2.id = entry.1
  deriving Repr

namespace Catalogue

def empty : Catalogue := ⟨.empty, nofun⟩

/-- Of properties with the same id the last one counts. -/
def ofList (properties : List Property) : Catalogue where
  properties := .ofList (properties.map fun p => (p.id, p))
  filed entry member := by
    obtain ⟨p, -, rfl⟩ := List.mem_map.mp (Dictionary.mem_ofList member)
    rfl

/-- A hint shows its text as it is, and other values as compact JSON. -/
def hintText : Json → Text
  | .string t => t
  | value => value.text

/-- Hints under the name of no property are dropped. -/
def addHints (c : Catalogue) (group : HintGroup) : Catalogue where
  properties := c.properties.modify group.name fun p => { p with hints := p.hints ++ group.values.map hintText }
  filed entry member := by
    obtain ⟨⟨key, p⟩, old, rfl⟩ := List.mem_map.mp member
    dsimp only
    split <;> exact c.filed _ old

def ofMetadata (m : Metadata) : Catalogue := m.hints.foldl addHints (ofList m.properties)

def parse? (t : Text) : Option Catalogue := (Metadata.parse? t).map ofMetadata

def size (c : Catalogue) : Nat := c.properties.size

def isEmpty (c : Catalogue) : Bool := c.properties.isEmpty

/-- In the order of their ids. -/
def toList (c : Catalogue) : List Property := c.properties.values

def get? (c : Catalogue) (id : Text) : Option Property := c.properties.get? id

/-- The properties whose id matches, in the order of their ids. -/
def find (c : Catalogue) (pattern : Text) : List (Match Property) := c.properties.matching pattern

def longestStart (c : Catalogue) (name : Text) : Text := c.properties.longestStart name

end Catalogue
end Offside
