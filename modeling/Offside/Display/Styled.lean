import Offside.Display.Label

/-! Segments in JSON: an object with `kind` and `text`, or an array of the two. -/
namespace Offside

namespace SegmentKind

def label : SegmentKind → Text
  | name => "Name".toList
  | operator => "Operator".toList
  | value => "Value".toList
  | punct => "Punct".toList
  | type => "Type".toList
  | description => "Description".toList

def ofLabel? (t : Text) : Option SegmentKind :=
  [name, operator, value, punct, type, description].find? (label · == t)

end SegmentKind

namespace Segment

def json (s : Segment) : Json :=
  .ofFields [("kind".toList, .string s.kind.label), ("text".toList, .string s.text)]

/-- Further fields of an object are passed over. -/
def ofJson? (j : Json) : Option Segment := do
  let (kind, text) ← match j with
    | .object _ => pure (← j.field? "kind".toList, ← j.field? "text".toList)
    | .array [kind, text] => pure (kind, text)
    | _ => none
  let .string kind := kind | none
  let .string text := text | none
  return ⟨← SegmentKind.ofLabel? kind, text⟩

def listOfJson? : Json → Option (List Segment)
  | .array items => items.mapM ofJson?
  | _ => none

end Segment
end Offside
