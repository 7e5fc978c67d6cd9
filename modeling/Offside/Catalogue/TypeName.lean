import Offside.Character.Alphanumeric
import Offside.Text.Basic

/-! Names of value types: the shape of value they stand for, and their short form. -/
namespace Offside

open Text Character

/-- What a value looks like, which decides what follows its key. -/
inductive Shape where
  /-- A scalar, on the line of the key. -/
  | atomic
  /-- Nested keys on the lines below. -/
  | map
  /-- Entries on the lines below. -/
  | sequence
  deriving DecidableEq, Repr

namespace TypeName

def endsIn (t : Text) (ending : String) : Bool := ending.toList.isSuffixOf t

/-- The name of a type without its package and its arguments. -/
def simple (type : Text) : Text := lastPart (· == '.') (type.takeWhile (· ≠ '<'))

def shape (type : Text) : Shape :=
  let type := trim type
  let name := simple type
  if endsIn type "[]" then .sequence
  else if endsIn name "Map" || name == "Properties".toList then .map
  else if endsIn name "List" || endsIn name "Set" || endsIn name "Collection" || name == "Iterable".toList then
    .sequence
  else .atomic

def isBoolean (type : Text) : Bool := type == "boolean".toList || type == "java.lang.Boolean".toList

def isNameChar (c : Char) : Bool := isAlphanumeric c || c == '.' || c == '_' || c == '$'

/-- Reads on with a name not yet written; `afterComma` drops white space until something else comes. -/
def shortFrom (name : Text) (afterComma : Bool) : Text → Text
  | [] => lastPart (· == '.') name
  | c :: rest =>
    if isNameChar c then shortFrom (name ++ [c]) false rest
    else if afterComma && isWhite c then shortFrom name true rest
    else
      lastPart (· == '.') name ++
        if c = ',' then ',' :: ' ' :: shortFrom [] true rest else c :: shortFrom [] false rest

/-- Packages are left out of all names in a type, and one blank follows each comma. -/
def short (type : Text) : Text := shortFrom [] false type

end TypeName

def Shape.ofType (type : Option Text) : Shape := (type.map TypeName.shape).getD .atomic

end Offside
