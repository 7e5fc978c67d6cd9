import Offside.Catalogue.Property
import Offside.Json.Record

/-! Property metadata as JSON: `properties`, and `hints` with further values for properties by name. -/
namespace Offside

open Json Json.Record

/-- Reads a property whose default value nests at most `depth` levels. -/
def Property.ofWritten? (depth : Nat) (w : Written) : Option Property := do
  let [id, type, defaultValue, description, hints, deprecated] ←
    fields? [["id", "name"], ["type"], ["defaultValue"], ["description"], ["hints"], ["deprecated"]] w | none
  return {
    id := ← id.bind text?
    type := ← optional text? type
    defaultValue := ← optional (Written.value? depth) defaultValue
    description := ← optional text? description
    hints := ← orDefault [] (list? text?) hints
    deprecated := ← orDefault false bool? deprecated }

structure HintGroup where
  name : Text
  values : List Json
  deriving Repr

/-- Reads the values offered under a name. A null is a value here. -/
def HintGroup.ofWritten? (depth : Nat) (w : Written) : Option HintGroup := do
  let [name, values] ← fields? [["name"], ["values"]] w | none
  let value? (w : Written) : Option Json := do
    let [value] ← fields? [["value"]] w | none
    value.bind (Written.value? depth)
  return { name := ← name.bind text?, values := ← orDefault [] (list? value?) values }

structure Metadata where
  properties : List Property
  hints : List HintGroup
  deriving Repr

namespace Metadata

/-- A default value stands three levels deep in the metadata, a hint's value five. -/
def ofWritten? (w : Written) : Option Metadata := do
  let [properties, hints] ← fields? [["properties"], ["hints"]] w | none
  return {
    properties := ← orDefault [] (list? (Property.ofWritten? (greatestDepth - 3))) properties
    hints := ← orDefault [] (list? (HintGroup.ofWritten? (greatestDepth - 5))) hints }

def parse? (t : Text) : Option Metadata := (Written.read? t).bind ofWritten?

end Metadata
end Offside
