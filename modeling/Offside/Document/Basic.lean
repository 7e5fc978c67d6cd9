import Offside.Document.Error

/-!
Documents addressed by byte offset and by line, both from 0. Lines are read off the text: each line feed
ends one, together with a carriage return right before it, and the last line has no ending.
-/
namespace Offside

open Text

inductive LineBreak where
  | lf
  | crlf
  deriving DecidableEq, Repr

def LineBreak.text : LineBreak → Text
  | lf => ['\n']
  | crlf => ['\r', '\n']

/-- `content` leaves the ending out; only the last line of a document has none. -/
structure Line where
  start : Nat
  content : Text
  ending : Option LineBreak
  deriving DecidableEq, Repr

namespace Line

def length (l : Line) : Nat := bytes l.content

/-- The end of the content. -/
def stop (l : Line) : Nat := l.start + l.length

/-- The line with its ending. -/
def full (l : Line) : Text := l.content ++ (l.ending.map LineBreak.text).getD []

/-- A carriage return at the end of a terminated line belongs to its ending. -/
def ofTerminated (start : Nat) (piece : Text) : Line :=
  if piece.getLast? = some '\r' then ⟨start, piece.dropLast, some .crlf⟩ else ⟨start, piece, some .lf⟩

/-- Lays pieces that line feeds separate one after the other from `start`. -/
def lay (start : Nat) : List Text → List Line
  | [] => []
  | [piece] => [⟨start, piece, none⟩]
  | piece :: pieces => ofTerminated start piece :: lay (start + bytes piece + 1) pieces

end Line

structure Document where
  text : Text
  deriving DecidableEq, Repr

/-- Offsets are machine words: no sum of an offset and a length goes beyond this one. -/
def lastOffset : Nat := UInt64.size - 1

namespace Document

def length (d : Document) : Nat := bytes d.text

def isEmpty (d : Document) : Bool := d.text.isEmpty

def lines (d : Document) : List Line := Line.lay 0 (d.text.splitOn '\n')

/-- The line break of the first line, which new lines take over. -/
def lineBreak (d : Document) : LineBreak := (d.lines.head?.bind Line.ending).getD .lf

def badLocation (d : Document) (offset : Nat) : EditError := .badLocation offset d.length

def checkOffset (d : Document) (offset : Nat) : Except EditError Unit :=
  if Boundary d.text offset then .ok () else .error (d.badLocation offset)

/-- The character that starts at `offset`. -/
def charAt? (d : Document) (offset : Nat) : Option Char :=
  if Boundary d.text offset then (after d.text offset).head? else none

def charAt (d : Document) (offset : Nat) : Except EditError Char :=
  match d.charAt? offset with
  | some c => .ok c
  | none => .error (d.badLocation offset)

/-- The text between two offsets. -/
def slice (d : Document) (start stop : Nat) : Text := after (before d.text stop) start

def reach (offset length : Nat) : Nat := min (offset + length) lastOffset

/-- `length` bytes from `offset` on; a refusal names the far end. -/
def get (d : Document) (offset length : Nat) : Except EditError Text :=
  let stop := reach offset length
  if Boundary d.text offset ∧ Boundary d.text stop then .ok (d.slice offset stop)
  else .error (d.badLocation stop)

def line (d : Document) (n : Nat) : Except EditError Line :=
  match d.lines[n]? with
  | some l => .ok l
  | none => .error (.badLine n d.lines.length)

/-- The number of the line that holds `offset`: the line feeds before it. -/
def lineOf (d : Document) (offset : Nat) : Except EditError Nat := do
  d.checkOffset offset
  return (before d.text offset).count '\n'

def lineAround (d : Document) (offset : Nat) : Except EditError Line := do
  d.line (← d.lineOf offset)

/-- The text from the start of the line that holds `offset` up to `offset`. -/
def lineBefore (d : Document) (offset : Nat) : Except EditError Text := do
  d.checkOffset offset
  return lastPart (· == '\n') (before d.text offset)

/-- Line and column, the column in bytes. -/
def position (d : Document) (offset : Nat) : Except EditError (Nat × Nat) := do
  return (← d.lineOf offset, bytes (← d.lineBefore offset))

/-- Leading spaces of a line; none if it is blank or holds only a comment. -/
def indentation (d : Document) (n : Nat) : Except EditError (Option Nat) := do
  return Text.indentation (← d.line n).content

/-- Puts `text` in the place of the `length` bytes from `offset` on. -/
def replace (d : Document) (offset length : Nat) (text : Text) : Except EditError Document := do
  let stop := reach offset length
  d.checkOffset offset
  d.checkOffset stop
  return ⟨before d.text offset ++ text ++ after d.text stop⟩

def insert (d : Document) (offset : Nat) (text : Text) : Except EditError Document :=
  d.replace offset 0 text

end Document
end Offside
