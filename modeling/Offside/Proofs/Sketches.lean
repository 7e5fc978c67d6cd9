import Offside.Proofs.Grafts
import Offside.Proofs.Paths
import Offside.Proofs.Spacing

/-! Sketches of outlines: the keys and entries alone, without their places. Paths and columns for new keys can be read
off a sketch, and a line that opens nothing leaves it as it is. -/
namespace Offside

structure Sketch where
  column : Nat
  name? : Option Text
  parent : Option Nat
  deriving DecidableEq

def Node.sketch? (n : Node) : Option Sketch :=
  if n.isContainer then n.column?.map fun column => ⟨column, n.kind.name?, n.parent⟩ else none

theorem Node.sketch?_eq_some_iff {n : Node} {s : Sketch} :
    n.sketch? = some s ↔
      n.isContainer = true ∧ n.column? = some s.column ∧ n.kind.name? = s.name? ∧ n.parent = s.parent := by
  obtain ⟨column, name, parent⟩ := s
  unfold sketch?
  split
  next container => simp [container]
  next plain => simp [plain]

theorem Node.sketch?_loose (n : Node) : n.loose.sketch? = n.sketch? := by
  unfold loose
  split
  · rfl
  next gap =>
    have none := Option.not_isSome_iff_eq_none.mp gap
    have none' : Node.column? { n with parent := .none } = .none := none
    simp [sketch?, none, none']

theorem Node.sketch?_shift (k : Nat) (n : Node) : Node.sketch? ⟨n.toItem.shift k, n.parent⟩ = n.sketch? := by
  obtain ⟨⟨kind, start, stop⟩, parent⟩ := n
  cases kind <;> rfl

theorem Node.exists_sketch_of_name? {n : Node} {name : Text} (named : n.kind.name? = some name) :
    ∃ column, n.column? = some column ∧ n.sketch? = some ⟨column, some name, n.parent⟩ := by
  obtain ⟨column, colon, kind⟩ := Kind.exists_key_of_name? named
  refine ⟨column, by rw [column?, kind]; rfl, sketch?_eq_some_iff.mpr ⟨?_, ?_, named, rfl⟩⟩
  · rw [isContainer, kind]; rfl
  · rw [column?, kind]; rfl

namespace Outline

def sketches (o : Outline) : List (Option Sketch) := o.nodes.map Node.sketch?

section Same

variable {a b : Outline} (same : a.sketches = b.sketches)

include same

theorem exists_of_sketches {i : Nat} {n : Node} {s : Sketch} (found : a.nodes[i]? = some n)
    (sketch : n.sketch? = some s) : ∃ m, b.nodes[i]? = some m ∧ m.sketch? = some s := by
  have at' := congrArg (·[i]?) same
  simp only [sketches, List.getElem?_map, found, Option.map_some, sketch] at at'
  exact Option.map_eq_some_iff.mp at'.symm

theorem exists_key_of_sketches {i : Nat} {n : Node} {name : Text} (found : a.nodes[i]? = some n)
    (named : n.kind.name? = some name) :
    ∃ m, b.nodes[i]? = some m ∧ m.kind.name? = some name ∧ m.column? = n.column? ∧ m.parent = n.parent := by
  obtain ⟨column, stands, sketch⟩ := Node.exists_sketch_of_name? named
  obtain ⟨m, at', sketch'⟩ := exists_of_sketches same found sketch
  obtain ⟨-, stands', named', parent⟩ := Node.sketch?_eq_some_iff.mp sketch'
  exact ⟨m, at', named', stands'.trans stands.symm, parent⟩

theorem isChild_of_sketches {i j : Nat} {name : Text} (h : ∃ n, a.IsChild i name j n) :
    ∃ m, b.IsChild i name j m := by
  obtain ⟨n, child⟩ := h
  obtain ⟨m, found, named, -, parent⟩ := exists_key_of_sketches same child.found child.name
  exact ⟨m, found, child.above, parent.trans child.parent, named⟩

theorem childNamed?_of_sketches (i : Nat) (name : Text) : a.childNamed? i name = b.childNamed? i name := by
  have iff (j : Nat) : (∃ n, a.IsChild i name j n) ↔ ∃ n, b.IsChild i name j n :=
    ⟨isChild_of_sketches same, isChild_of_sketches same.symm⟩
  cases found : b.childNamed? i name with
  | none =>
    have absent := childNamed?_eq_none_iff.mp found
    refine childNamed?_eq_none_iff.mpr fun j n child => ?_
    obtain ⟨m, other⟩ := (iff j).mp ⟨n, child⟩
    exact absent j m other
  | some j =>
    obtain ⟨child, first⟩ := childNamed?_eq_some_iff.mp found
    refine childNamed?_eq_some_iff.mpr ⟨(iff j).mpr child, fun k n less other => ?_⟩
    obtain ⟨m, other⟩ := (iff k).mp ⟨n, other⟩
    exact first k m less other

theorem follow_of_sketches (i : Nat) (path : KeyPath) : a.follow i path = b.follow i path := by
  induction path generalizing i with
  | nil => rfl
  | cons key keys ih =>
    rw [follow_cons, follow_cons, childNamed?_of_sketches same]
    split
    · exact ih _
    · rfl

theorem childColumn_of_sketches {i : Nat} {n : Node} {name : Text} (found : a.nodes[i]? = some n)
    (named : n.kind.name? = some name) : a.childColumn i = b.childColumn i := by
  obtain ⟨m, at', -, same, -⟩ := exists_key_of_sketches same found named
  obtain ⟨column, stands, -⟩ := Node.exists_sketch_of_name? named
  rw [childColumn_of_column? found stands, childColumn_of_column? at' (same.trans stands)]

theorem Spaced.of_sketches (spaced : b.Spaced) : a.Spaced := by
  intro m member container i parent n found named column stands close
  obtain ⟨j, at'⟩ := List.mem_iff_getElem?.mp member
  obtain ⟨name, named⟩ := Option.isSome_iff_exists.mp named
  have sketch : m.sketch? = some ⟨column + 1, m.kind.name?, m.parent⟩ :=
    Node.sketch?_eq_some_iff.mpr ⟨container, close, rfl, rfl⟩
  obtain ⟨m', found', sketch⟩ := exists_of_sketches same at' sketch
  obtain ⟨container', close', -, parent'⟩ := Node.sketch?_eq_some_iff.mp sketch
  obtain ⟨n', above, named', stands', -⟩ := exists_key_of_sketches same found named
  exact spaced m' (List.mem_of_getElem? found') container' i (parent'.trans parent) n' above
    (by rw [named']; rfl) column (stands'.trans stands) close'

end Same

variable {above below : List Item} {column : Nat} {x y : Item}

theorem closeTo_openedBy {opened : List Frame} {next : Nat} (right : ∀ c, x.kind.column? = some c → column ≤ c) :
    closeTo column (openedBy opened next x) = closeTo column opened :=
  closeTo_openedAfter (show ∀ item ∈ [x], _ by simpa using right) opened next

/-- In place of an item that opens nothing another such item may stand, provided that what comes behind does not
stand right of them. -/
theorem sketches_swap (plainX : x.kind.isContainer = false) (plainY : y.kind.isContainer = false)
    (rightX : ∀ c, x.kind.column? = some c → column ≤ c) (rightY : ∀ c, y.kind.column? = some c → column ≤ c)
    (starts : StartsBy column below) (k : Nat) :
    (ofItems (above ++ x :: below.map (Item.shift k))).sketches = (ofItems (above ++ y :: below)).sketches := by
  have agree : closeTo column (openedBy (openedAfter [] 1 above) (above.length + 1) x) =
      closeTo column (openedBy (openedAfter [] 1 above) (above.length + 1) y) := by
    rw [closeTo_openedBy rightX, closeTo_openedBy rightY]
  have first {item : Item} (plain : item.kind.isContainer = false) (parent : Option Nat) :
      Node.sketch? ⟨item, parent⟩ = none := by simp [Node.sketch?, Node.isContainer, plain]
  have moved (opened : List Frame) (next : Nat) :
      (nest opened next (below.map (Item.shift k))).map Node.sketch? = (nest opened next below).map Node.sketch? := by
    rw [nest_map (fun item => Kind.column?_shift k item.kind) (fun item => Kind.isContainer_shift k item.kind),
      List.map_map]
    exact List.map_congr_left fun n _ => n.sketch?_shift k
  have loose (nodes : List Node) : (nodes.map Node.loose).map Node.sketch? = nodes.map Node.sketch? := by
    rw [List.map_map]
    exact List.map_congr_left fun n _ => n.sketch?_loose
  have later := congrArg (List.map Node.sketch?) (nest_loose_congr agree starts (above.length + 1 + 1))
  rw [loose, loose] at later
  rw [sketches, sketches, nodes_ofItems_append, nodes_ofItems_append, nest_cons, nest_cons, List.map_append,
    List.map_append, List.map_cons, List.map_cons, first plainX, first plainY, moved, later]

end Outline
end Offside
