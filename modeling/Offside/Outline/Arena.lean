import Offside.Outline.Nesting

/-!
Outlines as they are stored while lines are read: every slot of an arena holds a node and the list of its
children's numbers, and a node that is added is entered into the list of its container.
-/
namespace Offside

structure Slot extends Node where
  children : List Nat
  deriving DecidableEq, Repr

structure Arena where
  slots : List Slot
  deriving DecidableEq, Repr

namespace Arena

/-- The nodes without the lists. -/
def outline (a : Arena) : Outline := ⟨a.slots.map Slot.toNode⟩

/-- A number without a slot has no children. -/
def children (a : Arena) (i : Nat) : List Nat := (a.slots[i]?.map Slot.children).getD []

def name? (a : Arena) (i : Nat) : Option Text := a.slots[i]?.bind (·.kind.name?)

def column? (a : Arena) (i : Nat) : Option Nat := a.slots[i]?.bind (·.column?)

/-- The first key of this name in the list of node `i`. -/
def childNamed? (a : Arena) (i : Nat) (name : Text) : Option Nat :=
  (a.children i).find? (a.name? · == some name)

/-- Follows a path from node `i` down the lists, to the last node reached and the keys still missing. -/
def follow (a : Arena) (i : Nat) : KeyPath → Nat × KeyPath
  | [] => (i, [])
  | key :: keys =>
    match a.childNamed? i key with
    | some child => a.follow child keys
    | none => (i, key :: keys)

/-- Adds a node below node `parent`. -/
def add (a : Arena) (parent : Nat) (item : Item) : Arena :=
  let slots : List Slot := a.slots ++ [⟨⟨item, some parent⟩, []⟩]
  ⟨slots.modify parent fun slot => { slot with children := slot.children ++ [a.slots.length] }⟩

end Arena

/-- An arena that grows, with the containers that are open, the innermost first. -/
structure Builder where
  arena : Arena
  opened : List Nat
  deriving DecidableEq, Repr

namespace Builder

/-- The root has no column, so that it is never closed. -/
def start : Builder := ⟨⟨[⟨⟨⟨.root, 0, 0⟩, none⟩, []⟩]⟩, [0]⟩

def top (b : Builder) : Nat := b.opened.headD 0

def closeTo (column : Nat) (b : Builder) : Builder :=
  { b with opened := b.opened.dropWhile fun i => (b.arena.column? i).any (column ≤ ·) }

/-- Adds the items of a line: the first one below `parent`, and any other below the one before it. -/
def addChain (b : Builder) (parent : Nat) : List Item → Builder
  | [] => b
  | item :: items =>
    let next := b.arena.slots.length
    addChain ⟨b.arena.add parent item, if item.kind.isContainer then next :: b.opened else b.opened⟩ next items

/-- A blank or comment line goes to the innermost container. Any other line closes those that it does not
stand right of. -/
def addLine (b : Builder) (l : Line) : Builder :=
  let b := match Text.indentation l.content with
    | none => b
    | some column => b.closeTo column
  b.addChain b.top l.items

end Builder

def Document.arena (d : Document) : Arena := (d.lines.foldl Builder.addLine .start).arena

end Offside
