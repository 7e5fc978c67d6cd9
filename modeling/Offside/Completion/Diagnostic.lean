import Offside.Completion.Engine
import Offside.Text.Diagnostic

/-! Diagnostic text of proposals and engines. -/
namespace Offside

open Text Diagnostic

/-- Scores are positional from `0.0001` up to, but not including, `1e16`, and exponents have no plus sign; a
tie of two shortest decimals goes up. -/
def scoreLayout : Layout := ⟨-3, 16, true, false⟩

mutual

def Json.diagnostic : Json → Text
  | .null => "Null".toList
  | .bool value => wrapped "Bool" (Diagnostic.bool value)
  | .number value => wrapped "Number" value.text
  | .string value => wrapped "String" (Quoted.encode value)
  | .array items => "Array ".toList ++ Diagnostic.list (Json.itemDiagnostics items)
  | .object fields =>
    "Object ".toList ++ '\x7b' :: commaSeparated (Json.fieldDiagnostics fields) ++ ['\x7d']

def Json.itemDiagnostics : List Json → List Text
  | [] => []
  | item :: items => item.diagnostic :: Json.itemDiagnostics items

def Json.fieldDiagnostics : List (Text × Json) → List Text
  | [] => []
  | (name, value) :: fields =>
    (Quoted.encode name ++ ':' :: ' ' :: value.diagnostic) :: Json.fieldDiagnostics fields

end

def Property.diagnostic (p : Property) : Text :=
  record "PropertyInfo" [
    ("id", Quoted.encode p.id),
    ("ty", option (p.type.map Quoted.encode)),
    ("default_value", option (p.defaultValue.map Json.diagnostic)),
    ("description", option (p.description.map Quoted.encode)),
    ("hints", Diagnostic.list (p.hints.map Quoted.encode)),
    ("deprecated", Diagnostic.bool p.deprecated)]

def Offer.diagnostic : Offer → Text
  | .property found =>
    wrapped "Property" (record "Match" [
      ("data", found.item.diagnostic), ("score", scoreLayout.render found.score)])
  | .simple value order =>
    record "Simple" [("value", Quoted.encode value), ("sorting_order", Text.ofNat order)]

def Selection.diagnostic (s : Selection) : Text :=
  record "Selection" [("offset", Text.ofNat s.offset), ("length", Text.ofNat s.length)]

def Proposal.diagnostic (p : Proposal) : Text :=
  openRecord "Proposal" [
    ("kind", p.offer.diagnostic),
    ("project", option (p.project.map fun name => wrapped "ProjectHandle" (Quoted.encode name))),
    ("selection", option (p.selection.map Selection.diagnostic))]

def Engine.diagnostic (e : Engine) : Text :=
  openRecord "CompletionEngine" [
    ("config", record "CompletionConfig" [("max_proposals", Text.ofNat e.limit)])]

end Offside
