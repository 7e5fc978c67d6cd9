import Offside.Document.Basic

/-!
What a single line contributes to an outline, before nesting is known: a gap, a raw line, or a chain of
`- ` markers that ends in a key or a raw remainder. Columns grow strictly along the chain.
-/
namespace Offside

open Text

inductive Kind where
  | root
  | key (column : Nat) (name : Text) (colon : Nat)
  /-- A sequence entry, opened by a dash. -/
  | entry (column : Nat)
  /-- Content that opens nothing: a scalar, a continuation, a malformed line. -/
  | raw (column : Nat)
  /-- A blank or comment-only line, which belongs to whatever surrounds it. -/
  | gap
  deriving DecidableEq, Repr

namespace Kind

def column? : Kind → Option Nat
  | key column _ _ | entry column | raw column => some column
  | root | gap => none

def name? : Kind → Option Text
  | key _ name _ => some name
  | _ => none

def colon? : Kind → Option Nat
  | key _ _ colon => some colon
  | _ => none

/-- Other nodes may nest below it. -/
def isContainer : Kind → Bool
  | root | key .. | entry _ => true
  | raw _ | gap => false

def isGap : Kind → Bool
  | gap => true
  | _ => false

end Kind

/-- `stop` is the end of the line that the item stands on. -/
structure Item where
  kind : Kind
  start : Nat
  stop : Nat
  deriving DecidableEq, Repr

/-- A colon separates only before white space on the line, or at its end. -/
def separates (rest : Text) : Bool := rest.head?.all fun c => c == ' ' || c == '\t'

def bracketDepth (depth : Nat) (c : Char) : Nat :=
  if c = '[' ∨ c = '\x7b' then depth + 1 else if c = ']' ∨ c = '\x7d' then depth - 1 else depth

/-- The text up to the first colon that separates outside brackets. A comment, which a `#` after a space
opens, ends the search. -/
def beforeColon? (depth : Nat) (last : Char) : Text → Option Text
  | [] => none
  | c :: rest =>
    if c = '#' ∧ last = ' ' then none
    else if c = ':' ∧ depth = 0 ∧ separates rest then some []
    else (beforeColon? (bracketDepth depth c) c rest).map (c :: ·)

/-- The text before the colon of a `key: value` line. A quote that opens the line hides everything up to the
next quote of its kind. -/
def keyPart? (content : Text) : Option Text :=
  let found := match content with
    | [] => none
    | quote :: rest =>
      if quote = '"' ∨ quote = '\x27' then
        match rest.dropWhile (· ≠ quote) with
        | [] => none
        | close :: rest' =>
          (beforeColon? 0 close rest').map ((quote :: rest.takeWhile (· ≠ quote) ++ [close]) ++ ·)
      else beforeColon? 0 ' ' content
  found.filter (!isBlank ·)

namespace Line

def item (l : Line) (kind : Kind) (column : Nat) : Item := ⟨kind, l.start + column, l.stop⟩

/-- The last item of a line, whose content starts at `column`. -/
def leaf (l : Line) (column : Nat) (content : Text) : Item :=
  match keyPart? content with
  | some part => l.item (.key column (trimEnd part) (l.start + column + bytes part)) column
  | none => l.item (.raw column) column

/-- The items of a line from `column` on. A dash marks an entry if a space or the end of the line follows;
the entry's own content opens further items unless it is blank or a comment. -/
def itemsFrom (l : Line) (column : Nat) : Text → List Item
  | ' ' :: rest => l.itemsFrom (column + 1) rest
  | '-' :: rest =>
    if rest.head?.all (· == ' ') then
      l.item (.entry column) column ::
        if (indentation rest).isSome then l.itemsFrom (column + 1) rest else []
    else [l.leaf column ('-' :: rest)]
  | content => [l.leaf column content]

/-- A tab in the indentation keeps the line raw. A blank line is a gap from its start, a comment from its
mark. -/
def items (l : Line) : List Item :=
  let lead := (l.content.takeWhile (· == ' ')).length
  match indentation l.content with
  | none => [l.item .gap (if isBlank l.content then 0 else lead)]
  | some column =>
    if l.content[column]? = some '\t' then [l.item (.raw column) column] else l.itemsFrom 0 l.content

end Line
end Offside
