import Offside.Proofs.OffsideRule

/-! Items put between other items. Those before keep their nodes, and those behind keep theirs up to a shift of
numbers, provided that what was put in between leaves no frame open that they would fall into. Only gaps may
change their container. -/
namespace Offside

/-- Where a node goes when `count` nodes are put before the one numbered `first`. -/
def slide (first count i : Nat) : Nat := if i < first then i else i + count

theorem slide_of_lt {first count i : Nat} (h : i < first) : slide first count i = i := if_pos h

theorem slide_of_le {first count i : Nat} (h : first ≤ i) : slide first count i = i + count :=
  if_neg (Nat.not_lt.mpr h)

theorem slide_lt_slide {first count i j : Nat} (h : i < j) : slide first count i < slide first count j := by
  unfold slide
  split <;> split <;> omega

def Frame.slide (first count : Nat) (f : Frame) : Frame := { f with node := Offside.slide first count f.node }

def Node.slide (first count : Nat) (n : Node) : Node :=
  { n with parent := n.parent.map (Offside.slide first count) }

/-- The node without its container, unless it has a column. -/
def Node.loose (n : Node) : Node := if n.column?.isSome then n else { n with parent := none }

theorem Node.loose_of_column? {n : Node} {column : Nat} (h : n.column? = some column) : n.loose = n := by
  simp [loose, h]

theorem Node.column?_loose (n : Node) : n.loose.column? = n.column? := by
  unfold loose
  split <;> rfl

/-- Nodes that agree except for the containers of gaps agree on everything that has a column. -/
theorem getElem?_of_map_loose {a b : List Node} {i column : Nat} {n : Node}
    (same : a.map Node.loose = b.map Node.loose) (found : b[i]? = some n) (stands : n.column? = some column) :
    a[i]? = some n := by
  have eq := congrArg (·[i]?) same
  simp only [List.getElem?_map, found, Option.map_some, Node.loose_of_column? stands] at eq
  obtain ⟨m, at', loose⟩ := Option.map_eq_some_iff.mp eq
  have column : m.column? = some column := by rw [← Node.column?_loose, loose, stands]
  rw [Node.loose_of_column? column] at loose
  rw [at', loose]

/-- Nesting sees only columns and whether an item is a container. -/
theorem nest_map {f : Item → Item} (columns : ∀ item, (f item).kind.column? = item.kind.column?)
    (containers : ∀ item, (f item).kind.isContainer = item.kind.isContainer)
    (opened : List Frame) (next : Nat) (items : List Item) :
    nest opened next (items.map f) = (nest opened next items).map fun n => ⟨f n.toItem, n.parent⟩ := by
  induction items generalizing opened next with
  | nil => rfl
  | cons item items ih =>
    have enclosing : enclosingOf opened (f item) = enclosingOf opened item := by simp [enclosingOf, columns]
    have frames : openedBy opened next (f item) = openedBy opened next item := by
      simp [openedBy, columns, containers]
    rw [List.map_cons, nest_cons, nest_cons, List.map_cons, enclosing, frames, ih]

theorem enclosing_slide {first : Nat} (positive : 0 < first) (count : Nat) (opened : List Frame) :
    enclosing (opened.map (Frame.slide first count)) = slide first count (enclosing opened) := by
  cases opened with
  | nil => exact (slide_of_lt positive).symm
  | cons => rfl

theorem closeTo_slide (first count column : Nat) (opened : List Frame) :
    closeTo column (opened.map (Frame.slide first count)) =
      (closeTo column opened).map (Frame.slide first count) := by
  rw [closeTo, List.dropWhile_map]
  rfl

/-- Items that come `count` numbers later get the same nodes, with the numbers slid. -/
theorem nest_slide {first next : Nat} (positive : 0 < first) (le : first ≤ next) (count : Nat)
    (opened : List Frame) (items : List Item) :
    nest (opened.map (Frame.slide first count)) (next + count) items =
      (nest opened next items).map (Node.slide first count) := by
  induction items generalizing opened next with
  | nil => rfl
  | cons item items ih =>
    have container : enclosingOf (opened.map (Frame.slide first count)) item =
        slide first count (enclosingOf opened item) := by
      unfold enclosingOf
      split
      · exact enclosing_slide positive count opened
      · rw [closeTo_slide, enclosing_slide positive]
    have frames : openedBy (opened.map (Frame.slide first count)) (next + count) item =
        (openedBy opened next item).map (Frame.slide first count) := by
      unfold openedBy
      split
      · rfl
      · rw [closeTo_slide]
        split <;> simp [Frame.slide, slide_of_le le]
    rw [nest_cons, nest_cons, List.map_cons, container, frames, Nat.add_right_comm, ih (by omega)]
    rfl

/-- Of the items that have a column, the first one stands at `column` or left of it. -/
def StartsBy (column : Nat) : List Item → Prop
  | [] => True
  | item :: items =>
    match item.kind.column? with
    | none => StartsBy column items
    | some c => c ≤ column

theorem StartsBy.mono {a b : Nat} {items : List Item} (h : StartsBy a items) (le : a ≤ b) : StartsBy b items := by
  induction items with
  | nil => trivial
  | cons item items ih =>
    unfold StartsBy at h ⊢
    split
    next gap => rw [gap] at h; exact ih h
    next c stands => rw [stands] at h; exact Nat.le_trans h le

theorem StartsBy.exists_le {column : Nat} {items : List Item} (h : StartsBy column items) {t c : Nat} {item : Item}
    (found : items[t]? = some item) (stands : item.kind.column? = some c) :
    ∃ s first x, s ≤ t ∧ items[s]? = some first ∧ first.kind.column? = some x ∧ x ≤ column := by
  induction items generalizing t with
  | nil => simp at found
  | cons head items ih =>
    rw [StartsBy] at h
    cases at' : head.kind.column? with
    | some x =>
      rw [at'] at h
      exact ⟨0, head, x, Nat.zero_le t, rfl, at', h⟩
    | none =>
      rw [at'] at h
      cases t with
      | zero =>
        obtain rfl := Option.some.inj found
        simp [at'] at stands
      | succ t =>
        obtain ⟨s, first, x, le, earlier, place, left⟩ := ih h found
        exact ⟨s + 1, first, x, Nat.succ_le_succ le, earlier, place, left⟩

/-- Frames that agree up to a column enclose alike what starts there or left of there, gaps left out. -/
theorem nest_loose_congr {column : Nat} {a b : List Frame} (agree : closeTo column a = closeTo column b)
    {items : List Item} (starts : StartsBy column items) (next : Nat) :
    (nest a next items).map Node.loose = (nest b next items).map Node.loose := by
  induction items generalizing next with
  | nil => rfl
  | cons item items ih =>
    cases stands : item.kind.column? with
    | none =>
      rw [StartsBy, stands] at starts
      have gap (p q : Option Nat) : (Node.mk item p).loose = (Node.mk item q).loose := by
        simp [Node.loose, Node.column?, stands]
      simp only [nest_cons, openedBy, stands, List.map_cons, ih starts]
      rw [gap]
    | some c =>
      rw [StartsBy, stands] at starts
      have closed : closeTo c a = closeTo c b := by
        rw [← closeTo_closeTo starts a, agree, closeTo_closeTo starts]
      simp [nest_cons, enclosingOf, openedBy, stands, closed]

theorem closeTo_openedAfter {column : Nat} {items : List Item}
    (right : ∀ item ∈ items, ∀ c, item.kind.column? = some c → column ≤ c) (opened : List Frame) (next : Nat) :
    closeTo column (openedAfter opened next items) = closeTo column opened := by
  induction items generalizing opened next with
  | nil => rfl
  | cons item items ih =>
    rw [openedAfter, ih fun other member => right other (List.mem_cons_of_mem _ member)]
    unfold openedBy
    cases stands : item.kind.column? with
    | none => rfl
    | some c =>
      have le := right item List.mem_cons_self c stands
      have closed : closeTo column (⟨next, c⟩ :: closeTo c opened) = closeTo column opened := by
        rw [← closeTo_closeTo le opened, closeTo, List.dropWhile_cons_of_pos (by simpa using le)]
        rfl
      dsimp only
      split
      · exact closed
      · exact closeTo_closeTo le opened

namespace Outline

variable {above between below : List Item}

theorem getElem?_graft_of_lt {i : Nat} (h : i < above.length + 1) (more : List Item) :
    (ofItems (above ++ more)).nodes[i]? = (ofItems above).nodes[i]? := by
  rw [nodes_ofItems_append, List.getElem?_append_left (by simpa using h)]

theorem parent_lt {items : List Item} {i p : Nat} {n : Node} (found : (ofItems items).nodes[i]? = some n)
    (parent : n.parent = some p) : p < i := by
  cases i with
  | zero =>
    obtain rfl := Option.some.inj ((getElem?_ofItems_zero items).symm.trans found)
    simp at parent
  | succ k =>
    rw [getElem?_ofItems_succ] at found
    obtain ⟨item, -, rfl⟩ := Option.map_eq_some_iff.mp found
    obtain rfl := Option.some.inj parent
    have valid := (stacked_nil 1).openedAfter (items.take k) Nat.zero_lt_one
    have short : 1 + (items.take k).length ≤ k + 1 := by
      rw [Nat.add_comm]
      exact Nat.succ_le_succ (List.length_take_le k items)
    refine Nat.lt_of_lt_of_le ?_ short
    unfold enclosingOf
    split
    · exact valid.enclosing_lt (by omega)
    · exact (valid.closeTo _).enclosing_lt (by omega)

/-- The nodes behind what is put in between keep their containers, provided that those up to their column stay
as they were. -/
theorem getElem?_graft_of_le {column i c : Nat} {n : Node}
    (agree : closeTo column (openedAfter [] 1 (above ++ between)) = closeTo column (openedAfter [] 1 above))
    (starts : StartsBy column below) (le : above.length + 1 ≤ i)
    (found : (ofItems (above ++ below)).nodes[i]? = some n) (stands : n.column? = some c) :
    (ofItems (above ++ between ++ below)).nodes[i + between.length]? =
      some (n.slide (above.length + 1) between.length) := by
  obtain ⟨j, rfl⟩ := Nat.exists_eq_add_of_le le
  have valid := (stacked_nil 1).openedAfter above Nat.zero_lt_one
  -- The frames above are numbered below the insertion, so that they do not move.
  have fixed : (openedAfter [] 1 above).map (Frame.slide (above.length + 1) between.length) =
      openedAfter [] 1 above := by
    refine (List.map_congr_left fun f member => ?_).trans (List.map_id _)
    have := (valid.numbered f member).2
    rw [Frame.slide, slide_of_lt (by omega)]
    rfl
  have old : (nest (openedAfter [] 1 above) (above.length + 1) below)[j]? = some n := by
    rwa [nodes_ofItems_append, List.getElem?_append_right (by simp), length_ofItems, Nat.add_sub_cancel_left]
      at found
  have moved := nest_slide (Nat.succ_pos above.length) (Nat.le_refl _) between.length (openedAfter [] 1 above) below
  rw [fixed] at moved
  have same := nest_loose_congr agree starts (above.length + 1 + between.length)
  rw [moved] at same
  have length : (above ++ between).length + 1 = above.length + 1 + between.length := by
    rw [List.length_append]; omega
  rw [nodes_ofItems_append, List.getElem?_append_right (by rw [length_ofItems]; omega), length_ofItems, length,
    Nat.add_right_comm (above.length + 1), Nat.add_sub_cancel_left]
  refine getElem?_of_map_loose same ?_ stands
  rw [List.getElem?_map, old, Option.map_some]

/-- Items that are moved along with the bytes before them leave everything else as it is. -/
theorem nodes_ofItems_shift (above below : List Item) (k : Nat) :
    (ofItems (above ++ below.map (Item.shift k))).nodes =
      (ofItems above).nodes ++ (nest (openedAfter [] 1 above) (above.length + 1) below).map
        fun n => ⟨n.toItem.shift k, n.parent⟩ := by
  rw [nodes_ofItems_append]
  congr 1
  exact nest_map (fun item => Kind.column?_shift k item.kind) (fun item => Kind.isContainer_shift k item.kind) _ _ _

theorem getElem?_shift_of_le {k i : Nat} (le : above.length + 1 ≤ i) :
    (ofItems (above ++ below.map (Item.shift k))).nodes[i]? =
      (ofItems (above ++ below)).nodes[i]?.map fun n => ⟨n.toItem.shift k, n.parent⟩ := by
  rw [nodes_ofItems_shift, nodes_ofItems_append, List.getElem?_append_right (by rwa [length_ofItems]),
    List.getElem?_append_right (by rwa [length_ofItems]), List.getElem?_map]

end Outline

/-- A position that moves when `length` bytes are put in at `offset`. -/
def push (offset length place : Nat) : Nat := if place < offset then place else place + length

def Kind.push (offset length : Nat) : Kind → Kind
  | .key column name colon => .key column name (Offside.push offset length colon)
  | kind => kind

/-- The item with all its positions moved. Its end moves only if it comes after `offset`. -/
def Item.push (offset length : Nat) (item : Item) : Item where
  kind := item.kind.push offset length
  start := Offside.push offset length item.start
  stop := if item.stop ≤ offset then item.stop else item.stop + length

def Node.moved (offset length first count : Nat) (n : Node) : Node where
  toItem := n.toItem.push offset length
  parent := n.parent.map (Offside.slide first count)

namespace Item

variable {offset length : Nat} {item : Item}

theorem push_before (start : item.start < offset) (stop : item.stop ≤ offset)
    (colon : ∀ c, item.kind.colon? = some c → c < offset) : item.push offset length = item := by
  obtain ⟨kind, _, _⟩ := item
  cases kind <;> simp_all [Item.push, Kind.push, Offside.push, Kind.colon?]

theorem push_behind (start : offset ≤ item.start) (stop : offset < item.stop)
    (colon : ∀ c, item.kind.colon? = some c → offset ≤ c) : item.push offset length = item.shift length := by
  obtain ⟨kind, _, _⟩ := item
  cases kind <;>
    simp_all [Item.push, Item.shift, Kind.push, Kind.shift, Offside.push, Kind.colon?, Nat.not_lt.mpr, Nat.not_le.mpr]

theorem push_none (offset : Nat) (item : Item) : item.push offset 0 = item := by
  obtain ⟨kind, start, stop⟩ := item
  cases kind <;> simp [Item.push, Kind.push, Offside.push]

end Item

namespace Outline

/-- All nodes of `old` but the gaps are in `new`, with `count` nodes from number `first` on, and any number of gaps,
put between them. -/
structure Keeps (old new : Outline) (offset length first count : Nat) : Prop where
  kept : ∀ i n, old.nodes[i]? = some n → n.isGap = false →
    new.nodes[slide first count i]? = some (n.moved offset length first count)
  others : ∀ j x, new.nodes[j]? = some x → x.isGap = false → j < first ∨ first + count ≤ j →
    ∃ i n, old.nodes[i]? = some n ∧ n.isGap = false ∧ j = slide first count i

variable {above between below : List Item}

theorem keeps_refl (o : Outline) (offset first : Nat) : o.Keeps o offset 0 first 0 := by
  have still (j : Nat) : slide first 0 j = j := by unfold slide; split <;> rfl
  refine ⟨fun i n found _ => ?_, fun j x found visible _ => ⟨j, x, found, visible, (still j).symm⟩⟩
  have parent : n.parent.map (slide first 0) = n.parent := by
    rw [show slide first 0 = id from funext still, Option.map_id]
    rfl
  rw [still, found, Node.moved, Item.push_none, parent]

theorem exists_item_of_le {i : Nat} {n : Node} (le : above.length + 1 ≤ i)
    (found : (ofItems (above ++ below)).nodes[i]? = some n) : ∃ item ∈ below, ∃ parent, n = ⟨item, some parent⟩ := by
  obtain ⟨j, rfl⟩ := Nat.exists_eq_add_of_le le
  rw [Nat.add_right_comm, getElem?_ofItems_succ, List.getElem?_append_right (Nat.le_add_right _ _),
    Nat.add_sub_cancel_left] at found
  obtain ⟨item, at', rfl⟩ := Option.map_eq_some_iff.mp found
  exact ⟨item, List.mem_of_getElem? at', _, rfl⟩

theorem moved_of_lt {i offset k first count : Nat} {n : Node} (found : (ofItems above).nodes[i]? = some n)
    (early : i < first) (positive : 0 < offset) (visible : n.isGap = false)
    (before : ∀ item ∈ above, item.kind.isGap = false → item.push offset k = item) :
    n.moved offset k first count = n := by
  have fixed : n.parent.map (slide first count) = n.parent := by
    cases parent : n.parent with
    | none => rfl
    | some p => rw [Option.map_some, slide_of_lt (Nat.lt_trans (parent_lt found parent) early)]
  have still : n.toItem.push offset k = n.toItem := by
    cases i with
    | zero =>
      obtain rfl := Option.some.inj ((getElem?_ofItems_zero _).symm.trans found)
      exact Item.push_before positive (Nat.zero_le _) (by simp [Kind.colon?])
    | succ j =>
      rw [getElem?_ofItems_succ] at found
      obtain ⟨item, at', rfl⟩ := Option.map_eq_some_iff.mp found
      exact before item (List.mem_of_getElem? at') visible
  rw [Node.moved, still, fixed]

theorem keeps_graft {column offset k : Nat} (proper : Rootless (above ++ below))
    (right : ∀ item ∈ between, ∀ c, item.kind.column? = some c → column ≤ c) (starts : StartsBy column below)
    (positive : 0 < offset) (before : ∀ item ∈ above, item.kind.isGap = false → item.push offset k = item)
    (behind : ∀ item ∈ below, item.kind.isGap = false → item.push offset k = item.shift k) :
    (ofItems (above ++ below)).Keeps (ofItems (above ++ between ++ below.map (Item.shift k))) offset k
      (above.length + 1) between.length where
  kept i n found visible := by
    by_cases early : i < above.length + 1
    · rw [getElem?_graft_of_lt early] at found
      rw [slide_of_lt early, List.append_assoc, getElem?_graft_of_lt early, found,
        moved_of_lt found early positive visible before]
    · have late : above.length + 1 ≤ i := Nat.le_of_not_lt early
      obtain ⟨item, member, parent, rfl⟩ := exists_item_of_le late found
      obtain ⟨c, stands⟩ := Kind.column?_of_isGap (proper item (List.mem_append_right _ member)) visible
      have agree : closeTo column (openedAfter [] 1 (above ++ between)) = closeTo column (openedAfter [] 1 above) := by
        rw [openedAfter_append]
        exact closeTo_openedAfter right _ _
      have grafted := getElem?_graft_of_le agree starts late found stands
      rw [slide_of_le late, getElem?_shift_of_le (by rw [List.length_append]; omega), grafted, Node.moved,
        behind item member visible]
      rfl
  others j x found visible outside := by
    rcases outside with early | late
    · rw [List.append_assoc, getElem?_graft_of_lt early] at found
      exact ⟨j, x, by rwa [getElem?_graft_of_lt early], visible, (slide_of_lt early).symm⟩
    · have whole : (above ++ between).length + 1 ≤ j := by rw [List.length_append]; omega
      rw [getElem?_shift_of_le whole] at found
      obtain ⟨n, at', rfl⟩ := Option.map_eq_some_iff.mp found
      obtain ⟨u, rfl⟩ := Nat.exists_eq_add_of_le whole
      rw [Nat.add_right_comm, getElem?_ofItems_succ, List.getElem?_append_right (Nat.le_add_right _ _),
        Nat.add_sub_cancel_left] at at'
      obtain ⟨item, inside, rfl⟩ := Option.map_eq_some_iff.mp at'
      have node := getElem?_ofItems_succ (above ++ below) (above.length + u)
      rw [List.getElem?_append_right (Nat.le_add_right _ _), Nat.add_sub_cancel_left, inside, Option.map_some] at node
      refine ⟨_, _, node, by simpa [Node.isGap, Item.shift] using visible, ?_⟩
      rw [slide_of_le (by omega), List.length_append]
      omega

end Outline
end Offside
