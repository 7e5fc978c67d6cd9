import Offside.Json.Numeral

/-!
Reading JSON text. `Written` keeps what the text says before any value is taken from it: repeated fields, numbers
out of range and strings that are no Unicode text, so that a reader may pass over them.
-/
namespace Offside.Json

open Text

inductive Written where
  | null
  | bool (value : Bool)
  /-- Without a value if it lies beyond the largest double. -/
  | number (value : Option Number)
  /-- Without a value if it holds half a surrogate pair. -/
  | string (value : Option Text)
  | array (items : List Written)
  | object (fields : List (Option Text × Written))
  deriving Repr

/-- A character of a string, or a code unit that an escape names. -/
inductive StringPart where
  | char (c : Char)
  | unit (code : Nat)
  deriving DecidableEq, Repr

namespace StringPart

def isHigh (code : Nat) : Bool := 0xd800 ≤ code && code < 0xdc00

def isLow (code : Nat) : Bool := 0xdc00 ≤ code && code < 0xe000

def pairCode (high low : Nat) : Nat := 0x10000 + (high - 0xd800) * 0x400 + (low - 0xdc00)

/-- A high surrogate counts only with a low one right after it. -/
def text? : List StringPart → Option Text
  | [] => some []
  | .char c :: rest => (text? rest).map (c :: ·)
  | .unit high :: .unit low :: rest =>
    if isHigh high then
      if isLow low then (text? rest).map (Char.ofNat (pairCode high low) :: ·) else none
    else if isLow high then none
    else (text? (.unit low :: rest)).map (Char.ofNat high :: ·)
  | .unit code :: rest =>
    if isHigh code || isLow code then none else (text? rest).map (Char.ofNat code :: ·)

end StringPart

namespace Reader

def skipBlanks (t : Text) : Text := t.dropWhile fun c => c == ' ' || c == '\t' || c == '\n' || c == '\r'

def hexValue? (c : Char) : Option Nat :=
  if c.isDigit then some (c.toNat - '0'.toNat)
  else if 'a' ≤ c ∧ c ≤ 'f' then some (c.toNat - 'a'.toNat + 10)
  else if 'A' ≤ c ∧ c ≤ 'F' then some (c.toNat - 'A'.toNat + 10)
  else none

def unit? (a b c d : Char) : Option StringPart := do
  return .unit (((← hexValue? a) * 16 + (← hexValue? b)) * 256 + ((← hexValue? c) * 16 + (← hexValue? d)))

def escaped? : Char → Option Char
  | '"' => some '"'
  | '\\' => some '\\'
  | '/' => some '/'
  | 'b' => some '\x08'
  | 'f' => some '\x0c'
  | 'n' => some '\n'
  | 'r' => some '\r'
  | 't' => some '\t'
  | _ => none

/-- The inside of a string, up to and without its closing quote. -/
def stringParts? : Text → Option (List StringPart × Text)
  | [] => none
  | '"' :: rest => some ([], rest)
  | '\\' :: 'u' :: a :: b :: c :: d :: rest => do
    let part ← unit? a b c d
    let (parts, rest) ← stringParts? rest
    return (part :: parts, rest)
  | '\\' :: c :: rest => do
    let c ← escaped? c
    let (parts, rest) ← stringParts? rest
    return (.char c :: parts, rest)
  | c :: rest => do
    guard (0x20 ≤ c.toNat ∧ c ≠ '\\')
    let (parts, rest) ← stringParts? rest
    return (.char c :: parts, rest)

def string? (t : Text) : Option (Option Text × Text) :=
  (stringParts? t).map fun (parts, rest) => (StringPart.text? parts, rest)

mutual

/-- A value at the front of a text. -/
def value? : Nat → Text → Option (Written × Text)
  | 0, _ => none
  | fuel + 1, t =>
    match t with
    | 'n' :: 'u' :: 'l' :: 'l' :: rest => some (.null, rest)
    | 't' :: 'r' :: 'u' :: 'e' :: rest => some (.bool true, rest)
    | 'f' :: 'a' :: 'l' :: 's' :: 'e' :: rest => some (.bool false, rest)
    | '"' :: rest => (string? rest).map fun (s, rest) => (.string s, rest)
    | '[' :: rest =>
      match skipBlanks rest with
      | ']' :: rest => some (.array [], rest)
      | rest => (items? fuel rest).map fun (items, rest) => (.array items, rest)
    | '\x7b' :: rest =>
      match skipBlanks rest with
      | '\x7d' :: rest => some (.object [], rest)
      | rest => (fields? fuel rest).map fun (fields, rest) => (.object fields, rest)
    | _ => (Numeral.read? t).map fun (n, rest) => (.number n.value?, rest)

/-- The items of an array, from the first to the closing bracket. -/
def items? : Nat → Text → Option (List Written × Text)
  | 0, _ => none
  | fuel + 1, t => do
    let (item, rest) ← value? fuel (skipBlanks t)
    match skipBlanks rest with
    | ',' :: rest =>
      let (items, rest) ← items? fuel rest
      return (item :: items, rest)
    | ']' :: rest => return ([item], rest)
    | _ => none

/-- The fields of an object, from the first to the closing brace. -/
def fields? : Nat → Text → Option (List (Option Text × Written) × Text)
  | 0, _ => none
  | fuel + 1, t => do
    let '"' :: rest := skipBlanks t | none
    let (name, rest) ← string? rest
    let ':' :: rest := skipBlanks rest | none
    let (value, rest) ← value? fuel (skipBlanks rest)
    match skipBlanks rest with
    | ',' :: rest =>
      let (fields, rest) ← fields? fuel rest
      return ((name, value) :: fields, rest)
    | '\x7d' :: rest => return ([(name, value)], rest)
    | _ => none

end

end Reader

namespace Written

/-- Reads a whole text. No two steps down go by without a character, so twice its length is fuel enough. -/
def read? (t : Text) : Option Written := do
  let (value, rest) ← Reader.value? (2 * t.length + 1) (Reader.skipBlanks t)
  guard (Reader.skipBlanks rest).isEmpty
  return value

mutual

/-- The value, if it nests at most `depth` levels and all its parts have one. -/
def value? : Nat → Written → Option Json
  | _, null => some .null
  | _, bool value => some (.bool value)
  | _, number value => value.map .number
  | _, string value => value.map .string
  | depth + 1, array items => (itemValues? depth items).map .array
  | depth + 1, object fields => (fieldValues? depth fields).map ofFields
  | 0, array _ | 0, object _ => none

def itemValues? : Nat → List Written → Option (List Json)
  | _, [] => some []
  | depth, item :: items => do return (← item.value? depth) :: (← itemValues? depth items)

def fieldValues? : Nat → List (Option Text × Written) → Option (List (Text × Json))
  | _, [] => some []
  | depth, (name, value) :: fields => do
    return (← name, ← value.value? depth) :: (← fieldValues? depth fields)

end

end Written

/-- How deeply arrays and objects may nest. -/
def greatestDepth : Nat := 127

def parse? (t : Text) : Option Json := (Written.read? t).bind (Written.value? greatestDepth)

mutual

/-- A value as text would write it. -/
def written : Json → Written
  | null => .null
  | bool value => .bool value
  | number value => .number (some value)
  | string value => .string (some value)
  | array items => .array (writtenItems items)
  | object fields => .object (writtenFields fields)

def writtenItems : List Json → List Written
  | [] => []
  | item :: items => item.written :: writtenItems items

def writtenFields : List (Text × Json) → List (Option Text × Written)
  | [] => []
  | (name, value) :: fields => (some name, value.written) :: writtenFields fields

end

end Offside.Json
