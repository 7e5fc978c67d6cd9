import Mathlib.Data.List.Basic
import Offside.Outline.Nesting

/-! The frames that stay open behind a run of items. A frame is open exactly as long as every item since then
stands right of it, so the parent of an item depends on nothing but the columns before it. -/
namespace Offside

/-- The outline that items open below the root. -/
def Outline.ofItems (items : List Item) : Outline := ⟨⟨⟨.root, 0, 0⟩, none⟩ :: nest [] 1 items⟩

theorem Document.outline_eq (d : Document) : d.outline = .ofItems d.items := rfl

/-- The frames behind an item numbered `next`. -/
def openedBy (opened : List Frame) (next : Nat) (item : Item) : List Frame :=
  match item.kind.column? with
  | none => opened
  | some column =>
    if item.kind.isContainer then ⟨next, column⟩ :: closeTo column opened else closeTo column opened

def openedAfter (opened : List Frame) (next : Nat) : List Item → List Frame
  | [] => opened
  | item :: items => openedAfter (openedBy opened next item) (next + 1) items

/-- The container of an item, given the frames before it. -/
def enclosingOf (opened : List Frame) (item : Item) : Nat :=
  match item.kind.column? with
  | none => enclosing opened
  | some column => enclosing (closeTo column opened)

theorem nest_cons (opened : List Frame) (next : Nat) (item : Item) (items : List Item) :
    nest opened next (item :: items) =
      ⟨item, some (enclosingOf opened item)⟩ :: nest (openedBy opened next item) (next + 1) items := by
  cases h : item.kind.column? <;> simp [nest, enclosingOf, openedBy, h]

@[simp] theorem length_nest (opened : List Frame) (next : Nat) (items : List Item) :
    (nest opened next items).length = items.length := by
  induction items generalizing opened next with
  | nil => rfl
  | cons item items ih => simp [nest_cons, ih]

theorem nest_append (opened : List Frame) (next : Nat) (a b : List Item) :
    nest opened next (a ++ b) =
      nest opened next a ++ nest (openedAfter opened next a) (next + a.length) b := by
  induction a generalizing opened next with
  | nil => simp [nest, openedAfter]
  | cons item a ih => simp [nest_cons, openedAfter, ih, Nat.add_assoc, Nat.add_comm 1]

theorem openedAfter_append (opened : List Frame) (next : Nat) (a b : List Item) :
    openedAfter opened next (a ++ b) =
      openedAfter (openedAfter opened next a) (next + a.length) b := by
  induction a generalizing opened next with
  | nil => simp [openedAfter]
  | cons item a ih => simp [openedAfter, ih, Nat.add_assoc, Nat.add_comm 1]

theorem getElem?_nest (opened : List Frame) (next k : Nat) (items : List Item) :
    (nest opened next items)[k]? = items[k]?.map fun item =>
      ⟨item, some (enclosingOf (openedAfter opened next (items.take k)) item)⟩ := by
  induction items generalizing opened next k with
  | nil => simp [nest]
  | cons item items ih =>
    rw [nest_cons]
    cases k with
    | zero => simp [openedAfter]
    | succ k => simp [openedAfter, ih]

namespace Outline

@[simp] theorem length_ofItems (items : List Item) : (ofItems items).nodes.length = items.length + 1 := by
  simp [ofItems]

theorem getElem?_ofItems_zero (items : List Item) : (ofItems items).nodes[0]? = some ⟨⟨.root, 0, 0⟩, none⟩ := rfl

theorem getElem?_ofItems_succ (items : List Item) (k : Nat) :
    (ofItems items).nodes[k + 1]? = items[k]?.map fun item =>
      ⟨item, some (enclosingOf (openedAfter [] 1 (items.take k)) item)⟩ := by
  simp [ofItems, getElem?_nest]

theorem getElem?_ofItems_append (above below : List Item) (x : Item) :
    (ofItems (above ++ x :: below)).nodes[above.length + 1]? =
      some ⟨x, some (enclosingOf (openedAfter [] 1 above) x)⟩ := by
  rw [getElem?_ofItems_succ]
  simp

theorem exists_item_of_pos {items : List Item} {i : Nat} {n : Node} (positive : 0 < i)
    (found : (ofItems items).nodes[i]? = some n) :
    ∃ k item, i = k + 1 ∧ items[k]? = some item ∧
      n = ⟨item, some (enclosingOf (openedAfter [] 1 (items.take k)) item)⟩ := by
  cases i with
  | zero => contradiction
  | succ k =>
    rw [getElem?_ofItems_succ] at found
    obtain ⟨item, at', rfl⟩ := Option.map_eq_some_iff.mp found
    exact ⟨k, item, rfl, at', rfl⟩

theorem nodes_ofItems_append (a b : List Item) :
    (ofItems (a ++ b)).nodes = (ofItems a).nodes ++ nest (openedAfter [] 1 a) (a.length + 1) b := by
  rw [ofItems, nest_append, Nat.add_comm 1]
  rfl

end Outline

/-- Every item that has a column stands right of `column`. -/
def StandRight (column : Nat) (items : List Item) : Prop :=
  ∀ item ∈ items, ∀ c, item.kind.column? = some c → column < c

@[simp] theorem standRight_nil (column : Nat) : StandRight column [] := by simp [StandRight]

theorem standRight_cons {column : Nat} {item : Item} {items : List Item} :
    StandRight column (item :: items) ↔
      (∀ c, item.kind.column? = some c → column < c) ∧ StandRight column items := by
  simp [StandRight]

theorem standRight_append {column : Nat} {a b : List Item} :
    StandRight column (a ++ b) ↔ StandRight column a ∧ StandRight column b := by
  simp [StandRight, or_imp, forall_and]

/-- Inner frames come first. They stand further right, and they are numbered later, below `next`. -/
structure Stacked (opened : List Frame) (next : Nat) : Prop where
  nested : opened.Pairwise fun inner outer => outer.column < inner.column ∧ outer.node < inner.node
  numbered : ∀ f ∈ opened, 0 < f.node ∧ f.node < next

theorem stacked_nil (next : Nat) : Stacked [] next := ⟨.nil, by simp⟩

theorem mem_closeTo {opened : List Frame} {next column : Nat} {f : Frame} (valid : Stacked opened next) :
    f ∈ closeTo column opened ↔ f ∈ opened ∧ f.column < column := by
  obtain ⟨nested, -⟩ := valid
  unfold closeTo
  induction opened with
  | nil => simp
  | cons g opened ih =>
    obtain ⟨outer, nested⟩ := List.pairwise_cons.mp nested
    by_cases closed : column ≤ g.column
    · rw [List.dropWhile_cons_of_pos (by simpa using closed), ih nested, List.mem_cons]
      constructor
      · rintro ⟨member, left⟩
        exact ⟨.inr member, left⟩
      · rintro ⟨rfl | member, left⟩
        · omega
        · exact ⟨member, left⟩
    · rw [List.dropWhile_cons_of_neg (by simpa using closed), List.mem_cons]
      constructor
      · rintro (rfl | member)
        · exact ⟨.inl rfl, by omega⟩
        · have := (outer f member).1
          exact ⟨.inr member, by omega⟩
      · exact And.left

theorem Stacked.closeTo {opened : List Frame} {next : Nat} (column : Nat) (valid : Stacked opened next) :
    Stacked (closeTo column opened) next where
  nested := valid.nested.sublist (List.dropWhile_sublist _)
  numbered f member := valid.numbered f ((List.dropWhile_sublist _).mem member)

theorem Stacked.openedBy {opened : List Frame} {next : Nat} (item : Item) (valid : Stacked opened next)
    (positive : 0 < next) : Stacked (openedBy opened next item) (next + 1) := by
  have weaken {opened : List Frame} (valid : Stacked opened next) : Stacked opened (next + 1) :=
    ⟨valid.nested, fun f member => ⟨(valid.numbered f member).1, by have := valid.numbered f member; omega⟩⟩
  unfold Offside.openedBy
  split
  · exact weaken valid
  · next column _ =>
    have closed := valid.closeTo column
    split
    · refine ⟨List.pairwise_cons.mpr ⟨fun f member => ?_, closed.nested⟩, fun f member => ?_⟩
      · exact ⟨((mem_closeTo valid).mp member).2, (closed.numbered f member).2⟩
      · rcases List.mem_cons.mp member with rfl | member
        · exact ⟨positive, Nat.lt_succ_self next⟩
        · exact (weaken closed).numbered f member
    · exact weaken closed

theorem Stacked.openedAfter {opened : List Frame} {next : Nat} (items : List Item)
    (valid : Stacked opened next) (positive : 0 < next) :
    Stacked (openedAfter opened next items) (next + items.length) := by
  induction items generalizing opened next with
  | nil => exact valid
  | cons item items ih =>
    have := ih (valid.openedBy item positive) (Nat.succ_pos next)
    simpa [Offside.openedAfter, Nat.add_assoc, Nat.add_comm 1] using this

theorem mem_openedBy {opened : List Frame} {next : Nat} {item : Item} {f : Frame}
    (valid : Stacked opened next) :
    f ∈ openedBy opened next item ↔
      (f ∈ opened ∧ ∀ c, item.kind.column? = some c → f.column < c) ∨
      (item.kind.isContainer ∧ item.kind.column? = some f.column ∧ f.node = next) := by
  unfold openedBy
  cases h : item.kind.column? with
  | none => simp
  | some column =>
    simp only [Option.some.injEq, forall_eq']
    split
    next holds =>
      rw [List.mem_cons, mem_closeTo valid]
      constructor
      · rintro (rfl | old)
        · exact .inr ⟨holds, rfl, rfl⟩
        · exact .inl old
      · rintro (old | ⟨-, rfl, rfl⟩)
        · exact .inr old
        · exact .inl rfl
    next plain => simp [mem_closeTo valid, plain]

/-- A frame is open behind the items if it was open before them, or if one of them opened it, and if the items
since then stand right of it. -/
theorem mem_openedAfter {opened : List Frame} {next : Nat} {items : List Item} {f : Frame}
    (valid : Stacked opened next) (positive : 0 < next) :
    f ∈ openedAfter opened next items ↔
      (f ∈ opened ∧ StandRight f.column items) ∨
      ∃ k item, items[k]? = some item ∧ item.kind.isContainer ∧ item.kind.column? = some f.column ∧
        f.node = next + k ∧ StandRight f.column (items.drop (k + 1)) := by
  induction items generalizing opened next with
  | nil => simp [openedAfter]
  | cons item items ih =>
    rw [openedAfter, ih (valid.openedBy item positive) (Nat.succ_pos next), mem_openedBy valid]
    constructor
    · rintro (⟨⟨old, right⟩ | ⟨holds, column, node⟩, later⟩ | ⟨k, other, found, holds, column, node, later⟩)
      · exact .inl ⟨old, standRight_cons.mpr ⟨right, later⟩⟩
      · exact .inr ⟨0, item, rfl, holds, column, node, later⟩
      · exact .inr ⟨k + 1, other, found, holds, column, by omega, later⟩
    · rintro (⟨old, right⟩ | ⟨k, other, found, holds, column, node, later⟩)
      · have := standRight_cons.mp right
        exact .inl ⟨.inl ⟨old, this.1⟩, this.2⟩
      · cases k with
        | zero =>
          obtain rfl : item = other := Option.some.inj found
          exact .inl ⟨.inr ⟨holds, column, node⟩, later⟩
        | succ k => exact .inr ⟨k, other, found, holds, column, by omega, later⟩

theorem enclosing_cases {opened : List Frame} {next : Nat} (valid : Stacked opened next) :
    (opened = [] ∧ enclosing opened = 0) ∨
      ∃ f ∈ opened, enclosing opened = f.node ∧ ∀ g ∈ opened, g.node ≤ f.node ∧ g.column ≤ f.column := by
  cases opened with
  | nil => exact .inl ⟨rfl, rfl⟩
  | cons f opened =>
    refine .inr ⟨f, List.mem_cons_self, rfl, fun g member => ?_⟩
    rcases List.mem_cons.mp member with rfl | member
    · exact ⟨Nat.le_refl _, Nat.le_refl _⟩
    · have := (List.pairwise_cons.mp valid.nested).1 g member
      exact ⟨Nat.le_of_lt this.2, Nat.le_of_lt this.1⟩

theorem Stacked.enclosing_lt {opened : List Frame} {next : Nat} (valid : Stacked opened next) (positive : 0 < next) :
    enclosing opened < next := by
  rcases enclosing_cases valid with ⟨-, eq⟩ | ⟨f, member, eq, -⟩
  · rwa [eq]
  · rw [eq]
    exact (valid.numbered f member).2

/-- Closing to a column that is no further right undoes an earlier closing. -/
theorem closeTo_closeTo {column right : Nat} (h : column ≤ right) (opened : List Frame) :
    closeTo column (closeTo right opened) = closeTo column opened := by
  unfold closeTo
  induction opened with
  | nil => rfl
  | cons f opened ih =>
    by_cases closed : right ≤ f.column
    · rw [List.dropWhile_cons_of_pos (by simpa using closed), ih,
        List.dropWhile_cons_of_pos (by simpa using Nat.le_trans h closed)]
    · rw [List.dropWhile_cons_of_neg (by simpa using closed)]

end Offside
