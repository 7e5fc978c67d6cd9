import Offside.Outline.Basic

/-!
Nesting by the off-side rule: a line belongs to the nearest container above it that stands left of it, unless
a line in between stands no further right than that container. Gaps neither close nor open anything.
-/
namespace Offside

/-- A container that is still open. -/
structure Frame where
  node : Nat
  column : Nat
  deriving DecidableEq, Repr

/-- The innermost open container comes first; the root stays open below them all. -/
def enclosing (opened : List Frame) : Nat := (opened.head?.map Frame.node).getD 0

/-- An item closes the containers that stand at its column or right of it. -/
def closeTo (column : Nat) (opened : List Frame) : List Frame := opened.dropWhile (column ≤ ·.column)

/-- Numbers the items from `next` on and gives each the container that encloses it. -/
def nest (opened : List Frame) (next : Nat) : List Item → List Node
  | [] => []
  | item :: items =>
    match item.kind.column? with
    | none => ⟨item, some (enclosing opened)⟩ :: nest opened (next + 1) items
    | some column =>
      let left := closeTo column opened
      ⟨item, some (enclosing left)⟩ ::
        nest (if item.kind.isContainer then ⟨next, column⟩ :: left else left) (next + 1) items

def Document.items (d : Document) : List Item := d.lines.flatMap Line.items

def Document.outline (d : Document) : Outline := ⟨⟨⟨.root, 0, 0⟩, none⟩ :: nest [] 1 d.items⟩

end Offside
