import Offside.Text.Dictionary
import Offside.Number.Decimal

/-! JSON values and their compact text. -/
namespace Offside

open Text

namespace Json

/-- Whole numbers that fit a signed or an unsigned word are kept exactly; all others are finite doubles. -/
inductive Number where
  | whole (value : Int)
  | double (value : Binary64)
  deriving DecidableEq, Repr

/-- Positional from `0.00001` up to, but not including, `1e+16`, where exponents get a plus sign; a tie of two
shortest decimals goes to the even digit. -/
def layout : Layout := ⟨-4, 16, false, true⟩

def Number.text : Number → Text
  | whole value => Layout.ofInt value
  | double value => layout.render value

end Json

/-- Object fields are in code point order of their names, without repetition. -/
inductive Json where
  | null
  | bool (value : Bool)
  | number (value : Json.Number)
  | string (value : Text)
  | array (items : List Json)
  | object (fields : List (Text × Json))
  deriving Repr

namespace Json

/-- Of fields with the same name the last one counts. -/
def ofFields (fields : List (Text × Json)) : Json := .object (Dictionary.ofList fields).entries

def ofNat (n : Nat) : Json := .number (.whole n)

def field? (j : Json) (name : Text) : Option Json :=
  match j with
  | .object fields => fields.lookup name
  | _ => none

def hexDigits (n : Nat) : Text :=
  let digits := Nat.toDigits 16 n
  List.replicate (4 - digits.length) '0' ++ digits

/-- Quotes, backslashes and the control characters below the blank are escaped, nothing else. -/
def escape (c : Char) : Text :=
  match c with
  | '"' => ['\\', '"']
  | '\\' => ['\\', '\\']
  | '\x08' => ['\\', 'b']
  | '\x0c' => ['\\', 'f']
  | '\n' => ['\\', 'n']
  | '\r' => ['\\', 'r']
  | '\t' => ['\\', 't']
  | _ => if c.toNat < 0x20 then '\\' :: 'u' :: hexDigits c.toNat else [c]

def quote (t : Text) : Text := '"' :: t.flatMap escape ++ ['"']

mutual

/-- Without any white space. -/
def text : Json → Text
  | null => "null".toList
  | bool value => if value then "true".toList else "false".toList
  | number value => value.text
  | string value => quote value
  | array items => '[' :: itemsText items ++ [']']
  | object fields => '\x7b' :: fieldsText fields ++ ['\x7d']

def itemsText : List Json → Text
  | [] => []
  | [item] => item.text
  | item :: items => item.text ++ ',' :: itemsText items

def fieldsText : List (Text × Json) → Text
  | [] => []
  | [(name, value)] => quote name ++ ':' :: value.text
  | (name, value) :: fields => quote name ++ ':' :: value.text ++ ',' :: fieldsText fields

end

end Json
end Offside
