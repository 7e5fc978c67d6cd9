import Offside.Outline.Item
import Offside.Text.KeyPath

/-!
Outlines: the nodes of a document in document order, each with the number of the node that encloses it.
Node 0 is the root, and an enclosing node comes before what it encloses. Children, blocks and paths are read
off that list. Numbers have no bound here: where they are kept in 32 bits, an outline has at most `2 ^ 32` nodes.
-/
namespace Offside

structure Node extends Item where
  parent : Option Nat
  deriving DecidableEq, Repr

namespace Node

def column? (n : Node) : Option Nat := n.kind.column?

def isGap (n : Node) : Bool := n.kind.isGap

def isContainer (n : Node) : Bool := n.kind.isContainer

/-- `m` stands right of `n`; everything stands right of the root. -/
def holds (n m : Node) : Bool :=
  n.column?.all fun column => m.column?.any (column < ·)

end Node

structure Outline where
  nodes : List Node
  deriving DecidableEq, Repr

namespace Outline

/-- Only the root. -/
def isEmpty (o : Outline) : Bool := o.nodes.length ≤ 1

/-- A number without a node stands for a gap, which holds nothing. -/
def kindOf (o : Outline) (i : Nat) : Kind := (o.nodes[i]?.map (·.kind)).getD .gap

/-- The children of node `i` in document order, with their numbers. -/
def children (o : Outline) (i : Nat) : List (Node × Nat) :=
  o.nodes.zipIdx.filter fun (n, j) => i < j && n.parent == some i

theorem bounds_of_mem_children {o : Outline} {i j : Nat} {n : Node} (h : (n, j) ∈ o.children i) :
    i < j ∧ j < o.nodes.length := by
  simp only [children, List.mem_filter, Bool.and_eq_true, decide_eq_true_eq] at h
  have := List.mem_zipIdx h.1
  omega

/-- The children that are not gaps. -/
def realChildren (o : Outline) (i : Nat) : List (Node × Nat) :=
  (o.children i).filter fun (n, _) => !n.isGap

def firstChild? (o : Outline) (i : Nat) : Option (Node × Nat) := (o.realChildren i).head?

/-- The first child of node `i` that is a key with this name. -/
def childNamed? (o : Outline) (i : Nat) (name : Text) : Option Nat :=
  ((o.children i).find? fun (n, _) => n.kind.name? == some name).map Prod.snd

/-- Follows a path from node `i` along keys that exist, to the last node reached and the keys still missing.
The path resolves if none is missing. -/
def follow (o : Outline) (i : Nat) : KeyPath → Nat × KeyPath
  | [] => (i, [])
  | key :: keys =>
    match o.childNamed? i key with
    | some child => o.follow child keys
    | none => (i, key :: keys)

def keyAtColon? (o : Outline) (offset : Nat) : Option Nat :=
  o.nodes.findIdx? fun n => n.kind.colon? == some offset

/-- The nodes from the root down to node `i`. -/
def lineage (o : Outline) (i : Nat) : List Node :=
  match o.nodes[i]? with
  | none => []
  | some n =>
    match n.parent with
    | none => [n]
    | some p => if p < i then o.lineage p ++ [n] else [n]
termination_by i

/-- The keys from the root down to node `i`. There are none if an entry or a raw line is on the way, since no
dotted name reaches such a place. -/
def keyPath? (o : Outline) (i : Nat) : Option KeyPath := (o.lineage i).tail.mapM (·.kind.name?)

/-- The last child of node `i` that opens before `offset`, gaps left out. -/
def lastChildBefore? (o : Outline) (offset i : Nat) : Option (Node × Nat) :=
  ((o.realChildren i).filter fun (n, _) => n.start < offset).getLast?

theorem bounds_of_lastChildBefore {o : Outline} {offset i j : Nat} {n : Node}
    (h : o.lastChildBefore? offset i = some (n, j)) : i < j ∧ j < o.nodes.length :=
  have real := (List.mem_filter.mp (List.mem_of_getLast? h)).1
  bounds_of_mem_children (List.mem_filter.mp real).1

/-- Descends from node `i` along last children while they stand left of `column`. -/
def contextFrom (o : Outline) (offset column i : Nat) : Nat :=
  match _found : o.lastChildBefore? offset i with
  | none => i
  | some (n, j) =>
    if n.isContainer && n.column?.any (· < column) then o.contextFrom offset column j else i
termination_by o.nodes.length - i
decreasing_by
  have := bounds_of_lastChildBefore _found
  omega

/-- The container that would enclose a line at `column`, judged by the nodes that open before `offset`. -/
def context (o : Outline) (offset column : Nat) : Nat := o.contextFrom offset column 0

/-- The nodes nested below node `i`, gaps left out: the run of nodes after it that stand right of it. -/
def block (o : Outline) (i : Nat) : List Node :=
  match o.nodes.drop i with
  | [] => []
  | n :: later => if n.isContainer then (later.filter (!·.isGap)).takeWhile n.holds else []

/-- The end of the last line of node `i`'s block. -/
def blockEnd (o : Outline) (i : Nat) : Nat :=
  (o.block i).foldl (fun stop n => max stop n.stop) ((o.nodes[i]?.map (·.stop)).getD 0)

end Outline
end Offside
