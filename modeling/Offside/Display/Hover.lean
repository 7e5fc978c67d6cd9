import Offside.Display.Label

/-! Hover text of properties as HTML. Contents are escaped, so they add no tags. -/
namespace Offside

namespace Html

def escapeChar (c : Char) : Text :=
  match c with
  | '<' => "&lt;".toList
  | '>' => "&gt;".toList
  | '&' => "&amp;".toList
  | '"' => "&quot;".toList
  | c => [c]

def escape (t : Text) : Text := t.flatMap escapeChar

end Html

/-- The id, then what there is of type, default value, deprecation and description. -/
def Property.hover (p : Property) : Text :=
  let part (before : String) (after : String) (t : Text) : Text :=
    before.toList ++ Html.escape t ++ after.toList
  let optional (before : String) (after : String) (t : Option Text) : Text :=
    (t.map (part before after)).getD []
  part "<b>" "</b>" p.id ++
  optional "<br><code>" "</code>" p.type ++
  optional "<br><br>Default: <i>" "</i>" p.shownDefault? ++
  (if p.deprecated then "<br><br><b>Deprecated</b>".toList else []) ++
  optional "<br><br>" "" p.description

end Offside
