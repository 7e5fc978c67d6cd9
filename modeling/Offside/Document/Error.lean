import Offside.Text.Basic

/-! Why an operation on a document is refused. -/
namespace Offside

inductive EditError where
  | badLocation (offset length : Nat)
  | badLine (line lines : Nat)
  | invalidRange (start stop : Nat)
  | overlapping (offset : Nat)
  deriving DecidableEq, Repr

def EditError.message : EditError → Text
  | badLocation offset length =>
    "bad location: offset ".toList ++ Text.ofNat offset ++ " is outside a document of length ".toList ++
      Text.ofNat length
  | badLine line lines =>
    "bad line: ".toList ++ Text.ofNat line ++ " is outside a document with ".toList ++ Text.ofNat lines ++
      " lines".toList
  | invalidRange start stop =>
    "invalid edit range ".toList ++ Text.ofNat start ++ "..".toList ++ Text.ofNat stop
  | overlapping offset => "overlapping edits at offset ".toList ++ Text.ofNat offset

end Offside
