/-! Half-open ranges of byte offsets, and the editor's selection. -/
namespace Offside

structure Span where
  start : Nat
  stop : Nat
  deriving DecidableEq, Repr

namespace Span

/-- The empty span at `offset`. -/
def point (offset : Nat) : Span := ⟨offset, offset⟩

def length (s : Span) : Nat := s.stop - s.start

def isEmpty (s : Span) : Bool := s.stop ≤ s.start

end Span

structure Selection where
  offset : Nat
  length : Nat
  deriving DecidableEq, Repr

def Selection.caret (offset : Nat) : Selection := ⟨offset, 0⟩

end Offside
