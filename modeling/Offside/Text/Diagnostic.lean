import Offside.Text.Quoted

/-! Diagnostic text of values: constructors with their fields, on one line. -/
namespace Offside.Diagnostic

open Text

def commaSeparated (items : List Text) : Text := [',', ' '].intercalate items

def bool (b : Bool) : Text := (if b then "true" else "false").toList

/-- `Name(value)`. -/
def wrapped (name : String) (value : Text) : Text := name.toList ++ '(' :: value ++ [')']

def option (value : Option Text) : Text :=
  match value with
  | none => "None".toList
  | some value => wrapped "Some" value

/-- `[a, b]`. -/
def list (items : List Text) : Text := '[' :: commaSeparated items ++ [']']

/-- `Name` and the parts in braces. -/
def braced (name : String) (parts : List Text) : Text :=
  name.toList ++ " \x7b ".toList ++ commaSeparated parts ++ " \x7d".toList

def field (entry : String × Text) : Text := entry.1.toList ++ ':' :: ' ' :: entry.2

def record (name : String) (fields : List (String × Text)) : Text := braced name (fields.map field)

/-- A record that keeps some of its fields to itself. -/
def openRecord (name : String) (fields : List (String × Text)) : Text :=
  braced name (fields.map field ++ ["..".toList])

end Offside.Diagnostic
