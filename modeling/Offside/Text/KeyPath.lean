import Offside.Text.Basic

/-! Paths of keys, from the outermost key to the innermost, and their dotted form. -/
namespace Offside

abbrev KeyPath := List Text

namespace KeyPath

/-- The keys of a dotted name, empty parts left out. -/
def ofDotted (name : Text) : KeyPath := (name.splitOn '.').filter (!·.isEmpty)

def dotted (p : KeyPath) : Text := ['.'].intercalate p

/-- What follows `start`, if the path begins with it. -/
def dropStart? (p start : KeyPath) : Option KeyPath := start.isPrefixOf? p

end KeyPath
end Offside
