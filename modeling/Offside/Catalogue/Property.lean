import Offside.Catalogue.TypeName
import Offside.Json.Basic

/-! What is known of a configuration property. -/
namespace Offside

structure Property where
  id : Text
  type : Option Text
  defaultValue : Option Json
  description : Option Text
  /-- Known values, in the order in which they are offered. -/
  hints : List Text
  deprecated : Bool
  deriving Repr

namespace Property

def named (id : Text) : Property := ⟨id, none, none, none, [], false⟩

def shape (p : Property) : Shape := .ofType p.type

def isBoolean (p : Property) : Bool := p.type.any TypeName.isBoolean

/-- What is absent or empty is left out, except the mark of deprecation. -/
def json (p : Property) : Json :=
  let optional (name : String) (value : Option Json) := (value.map fun v => (name.toList, v)).toList
  .ofFields <|
    [("id".toList, .string p.id)] ++
    optional "type" (p.type.map .string) ++
    optional "defaultValue" p.defaultValue ++
    optional "description" (p.description.map .string) ++
    (if p.hints.isEmpty then [] else [("hints".toList, .array (p.hints.map .string))]) ++
    [("deprecated".toList, .bool p.deprecated)]

end Property
end Offside
