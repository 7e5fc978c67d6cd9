import Offside.Search.Closeness
import Offside.Text.Dictionary

/-! Searching a dictionary by pattern. -/
namespace Offside

structure Match (α : Type) where
  item : α
  score : Binary64
  deriving Repr

/-- The entries whose key matches, in key order. -/
def Dictionary.matching (d : Dictionary α) (pattern : Text) : List (Match α) :=
  d.entries.filterMap fun (key, item) => (closeness? pattern key).map fun c => ⟨item, c.score⟩

end Offside
