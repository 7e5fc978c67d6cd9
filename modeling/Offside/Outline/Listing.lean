import Offside.Outline.Basic
import Offside.Text.Quoted

/-! A printed outline: a line per node, indented by two blanks per level. -/
namespace Offside

open Text

/-- The bytes of the line that a node opens on. -/
def Node.extent (n : Node) : Text := ofNat n.start ++ "..".toList ++ ofNat n.stop

namespace Outline

def depth (o : Outline) (i : Nat) : Nat := (o.lineage i).length - 1

/-- A gap shows as a raw line that is transparent to nesting. -/
def words (o : Outline) (n : Node) (i : Nat) : List Text :=
  let blockEnd := "tree_end=".toList ++ ofNat (o.blockEnd i)
  let indent (column : Nat) := "indent=".toList ++ ofNat column
  match n.kind with
  | .root => ["Root".toList, blockEnd]
  | .key column name _ => ["Key".toList, Quoted.encode name, n.extent, indent column, blockEnd]
  | .entry column => ["Seq".toList, n.extent, indent column, blockEnd]
  | .raw column => ["Raw".toList, n.extent, indent column]
  | .gap => ["Raw".toList, n.extent, "transparent".toList]

def listing (o : Outline) : Text :=
  o.nodes.zipIdx.flatMap fun (n, i) =>
    spaces (2 * o.depth i) ++ [' '].intercalate (o.words n i) ++ ['\n']

end Outline
end Offside
