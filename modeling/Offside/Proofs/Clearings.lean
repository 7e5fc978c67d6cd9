import Offside.Proofs.Carets
import Offside.Proofs.Growth
import Offside.Proofs.Sketches

/-! A document from which a word that stands alone on its line is taken out. Keys and entries stay what they are, and
the blocks of those nested in the context of the word end where they did. -/
namespace Offside

open Text Character

theorem startsBy_shift {column k : Nat} {items : List Item} :
    StartsBy column (items.map (Item.shift k)) ↔ StartsBy column items := by
  induction items with
  | nil => exact Iff.rfl
  | cons item items ih => cases stands : item.kind.column? <;> simp [StartsBy, Item.shift, stands, ih]

theorem standRight_shift {column k : Nat} {items : List Item} :
    StandRight column (items.map (Item.shift k)) ↔ StandRight column items := by
  simp [StandRight, Item.shift]

theorem StartsBy.append_of {column : Nat} {a b c : List Item} (h : StartsBy column (a ++ b))
    (later : StartsBy column b → StartsBy column c) : StartsBy column (a ++ c) := by
  induction a with
  | nil => exact later h
  | cons item a ih =>
    rw [List.cons_append, StartsBy] at h ⊢
    cases stands : item.kind.column? with
    | none =>
      rw [stands] at h
      exact ih h
    | some x =>
      rw [stands] at h
      exact h

theorem StartsBy.lt_of_standRight {column left : Nat} {a b : List Item} (starts : StartsBy column (a ++ b))
    (right : StandRight left a) (stands : ∃ item ∈ a, ∃ c, item.kind.column? = some c) : left < column := by
  induction a with
  | nil => simp at stands
  | cons item a ih =>
    obtain ⟨first, later⟩ := standRight_cons.mp right
    rw [List.cons_append, StartsBy] at starts
    cases column' : item.kind.column? with
    | none =>
      rw [column'] at starts
      apply ih starts later
      obtain ⟨other, member, c, stands⟩ := stands
      rcases List.mem_cons.mp member with rfl | member
      · simp [column'] at stands
      · exact ⟨other, member, c, stands⟩
    | some c =>
      rw [column'] at starts
      exact Nat.lt_of_lt_of_le (first c column') starts

namespace Document

/-- The line `q`, which opens nothing, is replaced by a gap, and the lines below move. -/
structure Cleared (d d' : Document) (column k : Nat) (upper : List Line) (q q' : Line) (lower : List Line) :
    Prop where
  old : d.lines = upper ++ q :: lower.map (Line.shift k)
  new : d'.lines = upper ++ q' :: lower
  plain : ∃ x, q.items = [x] ∧ x.kind.isContainer = false ∧ ∀ c, x.kind.column? = some c → c = column
  blank : ∃ y, q'.items = [y] ∧ y.kind.isContainer = false ∧ y.kind.column? = none
  starts : StartsBy column (lower.flatMap Line.items)

namespace Cleared

variable {d d' : Document} {column k : Nat} {upper : List Line} {q q' : Line} {lower : List Line}

theorem items_old (h : d.Cleared d' column k upper q q' lower) :
    d.items = upper.flatMap Line.items ++ (q.items ++ (lower.flatMap Line.items).map (Item.shift k)) := by
  rw [Document.items, h.old, List.flatMap_append, List.flatMap_cons, Line.flatMap_items_shift]

theorem items_new (h : d.Cleared d' column k upper q q' lower) :
    d'.items = upper.flatMap Line.items ++ (q'.items ++ lower.flatMap Line.items) := by
  rw [Document.items, h.new, List.flatMap_append, List.flatMap_cons]

theorem sketches (h : d.Cleared d' column k upper q q' lower) : d.outline.sketches = d'.outline.sketches := by
  obtain ⟨x, old, plain, stands⟩ := h.plain
  obtain ⟨y, new, gap, none⟩ := h.blank
  rw [outline_eq, outline_eq, h.items_old, h.items_new, old, new]
  refine Outline.sketches_swap plain gap (fun c at' => Nat.le_of_eq (stands c at').symm) (fun c at' => ?_) h.starts k
  simp [none] at at'

theorem node_eq (h : d.Cleared d' column k upper q q' lower) {i : Nat}
    (early : i ≤ (upper.flatMap Line.items).length) : d'.outline.nodes[i]? = d.outline.nodes[i]? := by
  rw [outline_eq, outline_eq, h.items_old, h.items_new, Outline.getElem?_graft_of_lt (Nat.lt_succ_of_le early),
    Outline.getElem?_graft_of_lt (Nat.lt_succ_of_le early)]

theorem le_context (h : d.Cleared d' column k upper q q' lower) {i c : Nat} {n : Node}
    (found : d.outline.nodes[i]? = some n) (container : n.isContainer = true) (stands : n.column? = some c)
    (early : i ≤ (upper.flatMap Line.items).length) (right : StandRight c ((upper.flatMap Line.items).drop i))
    (left : c < column) : i ≤ enclosing (closeTo column (openedAfter [] 1 (upper.flatMap Line.items))) := by
  have upTo : d.items.take (upper.flatMap Line.items).length = upper.flatMap Line.items := by
    rw [h.items_old, List.take_left]
  rw [outline_eq] at found
  have opened := Outline.openAt_of_standRight d.rootless_items found container stands early (by rwa [upTo])
  have valid := (stacked_nil 1).openedAfter (upper.flatMap Line.items) Nat.zero_lt_one
  have frame : ⟨i, c⟩ ∈ closeTo column (openedAfter [] 1 (upper.flatMap Line.items)) := by
    rw [mem_closeTo valid, ← upTo, Outline.mem_openedAfter_iff_openAt d.rootless_items]
    exact ⟨⟨n, opened, stands⟩, left⟩
  rcases latest_enclosing (valid.closeTo column) with ⟨-, greatest⟩ | ⟨-, none⟩
  · exact greatest i ⟨c, frame⟩
  · exact absurd ⟨c, frame⟩ (none i)

theorem startsBy_old (h : d.Cleared d' column k upper q q' lower) :
    StartsBy column ((q :: lower.map (Line.shift k)).flatMap Line.items) := by
  obtain ⟨x, single, -, place⟩ := h.plain
  have later : StartsBy column ((lower.map (Line.shift k)).flatMap Line.items) := by
    rw [Line.flatMap_items_shift]
    exact startsBy_shift.mpr h.starts
  rw [List.flatMap_cons, single, List.singleton_append, StartsBy]
  cases stands : x.kind.column? with
  | none => exact later
  | some c => exact Nat.le_of_eq (place c stands)

variable {i c : Nat} {n : Node} {above below : List Line} {l : Line}

/-- A block that reaches the line or ends below it belongs to a node below it, unless it is a block around the
context. -/
theorem lt_of_blockEnds (h : d.Cleared d' column k upper q q' lower) (found : d.outline.nodes[i]? = some n)
    (container : n.isContainer = true) (stands : n.column? = some c)
    (deep : enclosing (closeTo column (openedAfter [] 1 (upper.flatMap Line.items))) < i)
    (ends : d.BlockEnds i (some c) above l below) {mid : List Line} (split : above = upper ++ mid)
    (rest : q :: lower.map (Line.shift k) = mid ++ l :: below) : (upper.flatMap Line.items).length < i := by
  by_contra late
  have early : i ≤ (upper.flatMap Line.items).length := Nat.le_of_not_lt late
  have right := ends.right c rfl
  rw [split, List.append_assoc, List.flatMap_append, List.drop_append_of_le_length early, standRight_append] at right
  have starts := h.startsBy_old
  rw [rest, show mid ++ l :: below = mid ++ [l] ++ below by simp, List.flatMap_append] at starts
  obtain ⟨item, onLine, x, at'⟩ := ends.written.exists_item
  have left := starts.lt_of_standRight right.2
    ⟨item, List.mem_flatMap.mpr ⟨l, List.mem_append_right _ List.mem_cons_self, onLine⟩, x, at'⟩
  have := h.le_context found container stands early right.1 left
  omega

theorem blockEnds_above (h : d.Cleared d' column k upper q q' lower) {mid : List Line}
    (split : upper = above ++ l :: mid) (ends : d.BlockEnds i (some c) above l below) :
    d'.BlockEnds i (some c) above l (mid ++ q' :: lower) where
  split := by rw [h.new, split, List.append_assoc, List.cons_append]
  written := ends.written
  inside := ends.inside
  right := ends.right
  outside := by
    obtain ⟨x, old, -, place⟩ := h.plain
    obtain ⟨y, new, -, none⟩ := h.blank
    have eq := ends.split.symm.trans h.old
    rw [split, List.append_assoc, List.append_cancel_left_eq, List.cons_append, List.cons_eq_cons] at eq
    have outside := ends.outside
    rw [eq.2, List.flatMap_append, List.flatMap_cons, old, Line.flatMap_items_shift] at outside
    rw [List.flatMap_append, List.flatMap_cons, new]
    refine StartsBy.append_of outside fun later => ?_
    rw [List.singleton_append, StartsBy, none]
    rw [List.singleton_append, StartsBy] at later
    cases stands : x.kind.column? with
    | none =>
      rw [stands] at later
      exact startsBy_shift.mp later
    | some a =>
      rw [stands] at later
      exact h.starts.mono (by rw [← place a stands]; exact later)

theorem blockEnds_below (h : d.Cleared d' column k upper q q' lower) {mid more : List Line}
    (split : lower = mid ++ l :: more) (deep : (upper.flatMap Line.items).length < i)
    (ends : d.BlockEnds i (some c) (upper ++ q :: mid.map (Line.shift k)) (l.shift k) (more.map (Line.shift k))) :
    d'.BlockEnds i (some c) (upper ++ q' :: mid) l more := by
  obtain ⟨x, old, -, -⟩ := h.plain
  obtain ⟨y, new, -, -⟩ := h.blank
  obtain ⟨j, rfl⟩ := Nat.exists_eq_add_of_lt deep
  have before : (upper ++ q :: mid.map (Line.shift k) ++ [l.shift k]).flatMap Line.items =
      upper.flatMap Line.items ++ x :: ((mid ++ [l]).flatMap Line.items).map (Item.shift k) := by
    rw [← Line.flatMap_items_shift, List.append_assoc, List.flatMap_append, List.cons_append, List.flatMap_cons, old,
      List.map_append]
    rfl
  have after : (upper ++ q' :: mid ++ [l]).flatMap Line.items =
      upper.flatMap Line.items ++ y :: (mid ++ [l]).flatMap Line.items := by
    rw [List.append_assoc, List.flatMap_append, List.cons_append, List.flatMap_cons, new]
    rfl
  have inside := ends.inside
  have right := ends.right
  rw [before] at inside right
  refine ⟨?_, ends.written, ?_, fun c' eq => ?_, ?_⟩
  · rw [h.new, split, List.append_assoc, List.cons_append]
  · rw [after]
    simpa using inside
  · have right := right c' eq
    rw [Nat.add_assoc, List.drop_length_add_append, List.drop_succ_cons, ← List.map_drop, standRight_shift] at right
    rwa [after, Nat.add_assoc, List.drop_length_add_append, List.drop_succ_cons]
  · have outside := ends.outside
    rw [Line.flatMap_items_shift] at outside
    exact startsBy_shift.mp outside

/-- The blocks of nodes nested in the context end where they did. -/
theorem exists_blockEnds (h : d.Cleared d' column k upper q q' lower) (found : d.outline.nodes[i]? = some n)
    (container : n.isContainer = true) (stands : n.column? = some c)
    (deep : enclosing (closeTo column (openedAfter [] 1 (upper.flatMap Line.items))) < i)
    (ends : d.BlockEnds i (some c) above l below) :
    ∃ above' l' below', d'.BlockEnds i (some c) above' l' below' ∧
      (l' = l ∧ l ∈ upper ∨ l = l'.shift k ∧ l' ∈ lower) := by
  have eq := ends.split.symm.trans h.old
  have late {mid : List Line} (split : above = upper ++ mid) (rest : q :: lower.map (Line.shift k) = mid ++ l :: below) :
      ∃ above' l' below', d'.BlockEnds i (some c) above' l' below' ∧
        (l' = l ∧ l ∈ upper ∨ l = l'.shift k ∧ l' ∈ lower) := by
    have beyond := h.lt_of_blockEnds found container stands deep ends split rest
    obtain ⟨x, single, plain, -⟩ := h.plain
    cases mid with
    | nil =>
      -- The node would be the line itself.
      obtain ⟨rfl, -⟩ := List.cons_eq_cons.mp rest
      have inside := ends.inside
      rw [split, List.append_nil, List.flatMap_append, List.flatMap_singleton, single, List.length_append,
        List.length_singleton] at inside
      obtain rfl : i = (upper.flatMap Line.items).length + 1 := by omega
      rw [outline_eq, Outline.getElem?_ofItems_succ, h.items_old, single,
        List.getElem?_append_right (Nat.le_refl _), Nat.sub_self] at found
      obtain rfl := Option.some.inj found
      exact absurd (container.symm.trans plain) Bool.noConfusion
    | cons first mid =>
      obtain ⟨rfl, later⟩ := List.cons_eq_cons.mp rest
      obtain ⟨mid', more, lines, rfl, moved⟩ := List.map_eq_append_iff.mp later
      obtain ⟨l', below', rfl, rfl, rfl⟩ := List.map_eq_cons_iff.mp moved
      exact ⟨_, l', below', h.blockEnds_below lines beyond (split ▸ ends), .inr ⟨rfl, by rw [lines]; simp⟩⟩
  rcases List.append_eq_append_iff.mp eq with ⟨mid, split, rest⟩ | ⟨mid, split, rest⟩
  · cases mid with
    | nil => exact @late [] (by rw [split, List.append_nil, List.append_nil]) rest.symm
    | cons first mid =>
      obtain ⟨rfl, -⟩ := List.cons_eq_cons.mp rest
      exact ⟨above, l, _, h.blockEnds_above split ends, .inl ⟨rfl, by rw [split]; simp⟩⟩
  · exact late split rest

end Cleared

end Document
end Offside
