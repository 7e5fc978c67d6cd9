import Mathlib.Data.List.Find
import Offside.Outline.Arena
import Offside.Proofs.KeyLines
import Offside.Proofs.Preorder

/-! Arenas agree with the outlines that they store. A node is entered into the list of its container when it is added, so that a
list holds exactly the nodes that name its node as their parent, in the order of their numbers. -/
namespace Offside

open Text

namespace Outline

theorem children_concat (o : Outline) (n : Node) (i : Nat) : (Outline.mk (o.nodes ++ [n])).children i =
    o.children i ++ if i < o.nodes.length ∧ n.parent = some i then [(n, o.nodes.length)] else [] := by
  simp only [children, List.zipIdx_append, List.filter_append, Nat.zero_add, List.zipIdx_cons, List.zipIdx_nil]
  congr 1
  by_cases host : i < o.nodes.length ∧ n.parent = some i
  · simp [host]
  · rw [if_neg host, List.filter_cons_of_neg (by simpa using host), List.filter_nil]

end Outline

namespace Arena

variable {a : Arena} {i p : Nat} {item : Item}

@[simp] theorem length_outline (a : Arena) : a.outline.nodes.length = a.slots.length := List.length_map _

@[simp] theorem length_add : (a.add p item).slots.length = a.slots.length + 1 := by simp [add]

theorem outline_add : (a.add p item).outline = ⟨a.outline.nodes ++ [⟨item, some p⟩]⟩ := by
  refine congrArg Outline.mk (List.ext_getElem? fun j => ?_)
  rw [add, List.getElem?_map, List.getElem?_modify, ← List.map_singleton (f := Slot.toNode) (a := ⟨⟨item, some p⟩, []⟩), outline,
    ← List.map_append, List.getElem?_map, Option.map_eq_map, Option.map_map]
  congr 1
  funext slot
  by_cases host : p = j <;> simp [host]

theorem children_add (inside : p < a.slots.length) :
    (a.add p item).children i = a.children i ++ if i = p then [a.slots.length] else [] := by
  rw [children, add, List.getElem?_modify, children]
  rcases Nat.lt_trichotomy i a.slots.length with early | rfl | late
  · rw [List.getElem?_append_left early, List.getElem?_eq_getElem early]
    by_cases host : p = i
    · simp [host]
    · simp [host, Ne.symm host]
  · simp [Nat.ne_of_lt inside, Nat.ne_of_gt inside]
  · have other : i ≠ p := by omega
    have beyond : (a.slots ++ [⟨⟨item, some p⟩, []⟩])[i]? = none := List.getElem?_eq_none (by rw [List.length_append]; exact late)
    rw [List.getElem?_eq_none (Nat.le_of_lt late), beyond]
    simp [other]

/-- The lists hold the children that the nodes' parents tell. -/
def Linked (a : Arena) : Prop := ∀ i, a.children i = (a.outline.children i).map Prod.snd

theorem Linked.add (linked : a.Linked) (inside : p < a.slots.length) : (a.add p item).Linked := by
  intro i
  rw [children_add inside, outline_add, Outline.children_concat, linked i, List.map_append, length_outline]
  congr 1
  by_cases host : i = p
  · subst host
    simp [inside]
  · simp [host, Ne.symm host]

theorem column?_eq (a : Arena) (i : Nat) : a.column? i = a.outline.nodes[i]?.bind Node.column? := by
  rw [column?, outline, List.getElem?_map, Option.bind_map]
  rfl

theorem column?_add_of_lt (early : i < a.slots.length) : (a.add p item).column? i = a.column? i := by
  rw [column?_eq, outline_add, List.getElem?_append_left (by simpa using early), column?_eq]

theorem column?_add_length : (a.add p item).column? a.slots.length = item.kind.column? := by
  rw [column?_eq, outline_add, List.getElem?_append_right (by simp)]
  simp [Node.column?]

end Arena

variable {opened : List Frame} {next column : Nat} {item : Item} {items : List Item}

theorem closeTo_eq_self (left : ∀ f ∈ opened, f.column < column) : closeTo column opened = opened := by
  refine List.dropWhile_eq_self_iff.mpr fun nonempty => ?_
  simpa using left _ (List.getElem_mem nonempty)

theorem nest_closeTo (opened : List Frame) (next : Nat) (first : items.head?.bind (·.kind.column?) = some column) :
    nest (closeTo column opened) next items = nest opened next items ∧
      openedAfter (closeTo column opened) next items = openedAfter opened next items := by
  cases items with
  | nil => contradiction
  | cons item items =>
    have stands : item.kind.column? = some column := first
    have host : enclosingOf (closeTo column opened) item = enclosingOf opened item := by
      simp only [enclosingOf, stands, closeTo_closeTo (Nat.le_refl column)]
    have behind : openedBy (closeTo column opened) next item = openedBy opened next item := by
      simp only [openedBy, stands, closeTo_closeTo (Nat.le_refl column)]
    rw [nest_cons, nest_cons, openedAfter, openedAfter, host, behind]
    exact ⟨rfl, rfl⟩

namespace Line

/-- On its line, only an entry has something behind it, and that stands right of it. -/
def Chained (items : List Item) : Prop :=
  items.Pairwise fun a b => ∃ column, a.kind = .entry column ∧ StandRight column [b]

theorem chained_items (l : Line) : Chained l.items := by
  cases indented : indentation l.content with
  | none =>
    obtain ⟨column, -, single⟩ := items_gap indented
    rw [single]
    exact List.pairwise_singleton _ _
  | some column =>
    refine (l.pairwise_entry.and (opens_items indented).rising).imp ?_
    rintro a b ⟨⟨column, entry⟩, right⟩
    exact ⟨column, entry, right column (by rw [entry]; rfl)⟩

end Line

theorem dropWhile_frames {closes : Nat → Bool} (same : ∀ f ∈ opened, closes f.node = decide (column ≤ f.column))
    (root : closes 0 = false) :
    (opened.map Frame.node ++ [0]).dropWhile closes = (closeTo column opened).map Frame.node ++ [0] := by
  unfold closeTo
  induction opened with
  | nil => simp [root]
  | cons f opened ih =>
    obtain ⟨first, later⟩ := List.forall_mem_cons.mp same
    rw [List.map_cons, List.cons_append]
    by_cases closed : column ≤ f.column
    · rw [List.dropWhile_cons_of_pos (by simpa [first] using closed), ih later,
        List.dropWhile_cons_of_pos (by simpa using closed)]
    · rw [List.dropWhile_cons_of_neg (by simpa [first] using closed), List.dropWhile_cons_of_neg (by simpa using closed)]
      rfl

namespace Builder

/-- The arena is linked, and its open containers are those of the frames, with the root below them. -/
structure Standing (b : Builder) (frames : List Frame) : Prop where
  linked : b.arena.Linked
  root : b.arena.column? 0 = none
  opened : b.opened = frames.map Frame.node ++ [0]
  columns : ∀ f ∈ frames, b.arena.column? f.node = some f.column
  stacked : Stacked frames b.arena.slots.length
  positive : 0 < b.arena.slots.length

variable {b : Builder}

theorem Standing.top_eq (standing : b.Standing opened) : b.top = enclosing opened := by
  rw [top, standing.opened]
  cases opened <;> rfl

theorem Standing.closeTo (standing : b.Standing opened) (column : Nat) :
    (b.closeTo column).Standing (Offside.closeTo column opened) where
  linked := standing.linked
  root := standing.root
  opened := by
    rw [Builder.closeTo, standing.opened]
    refine dropWhile_frames (fun f member => ?_) ?_
    · rw [standing.columns f member, Option.any_some]
    · rw [standing.root, Option.any_none]
  columns f member := standing.columns f ((List.dropWhile_sublist _).mem member)
  stacked := standing.stacked.closeTo column
  positive := standing.positive

theorem Standing.add (standing : b.Standing opened) (proper : item.kind ≠ .root)
    (clear : ∀ column, item.kind.column? = some column → ∀ f ∈ opened, f.column < column) :
    Standing ⟨b.arena.add (enclosing opened) item,
      if item.kind.isContainer then b.arena.slots.length :: b.opened else b.opened⟩
      (openedBy opened b.arena.slots.length item) where
  linked := standing.linked.add (standing.stacked.enclosing_lt standing.positive)
  root := by rw [Arena.column?_add_of_lt standing.positive, standing.root]
  opened := by
    dsimp only
    rw [standing.opened, openedBy]
    cases stands : item.kind.column? with
    | none =>
      have closed : item.kind.isContainer = false := by
        cases kind : item.kind <;> simp_all [Kind.column?, Kind.isContainer]
      rw [if_neg (by simp [closed])]
    | some column =>
      dsimp only
      rw [closeTo_eq_self (clear column stands)]
      split <;> rfl
  columns f member := by
    rcases (mem_openedBy standing.stacked).mp member with ⟨old, -⟩ | ⟨-, stands, new⟩
    · rw [Arena.column?_add_of_lt (standing.stacked.numbered f old).2, standing.columns f old]
    · rw [new, Arena.column?_add_length, stands]
  stacked := by
    rw [Arena.length_add]
    exact standing.stacked.openedBy item standing.positive
  positive := by simp

theorem enclosingOf_eq (clear : ∀ column, item.kind.column? = some column → ∀ f ∈ opened, f.column < column) :
    enclosingOf opened item = enclosing opened := by
  unfold enclosingOf
  cases stands : item.kind.column? with
  | none => rfl
  | some column =>
    dsimp only
    rw [closeTo_eq_self (clear column stands)]

theorem Standing.addChain {p : Nat} (standing : b.Standing opened) (proper : Rootless items) (chained : Line.Chained items)
    (clear : ∀ item ∈ items.head?, ∀ column, item.kind.column? = some column → ∀ f ∈ opened, f.column < column)
    (host : items = [] ∨ p = enclosing opened) :
    (b.addChain p items).Standing (openedAfter opened b.arena.slots.length items) ∧
      (b.addChain p items).arena.outline.nodes = b.arena.outline.nodes ++ nest opened b.arena.slots.length items := by
  induction items generalizing b opened p with
  | nil => exact ⟨standing, (List.append_nil _).symm⟩
  | cons item items ih =>
    obtain rfl := host.resolve_left (List.cons_ne_nil _ _)
    have clear := clear item rfl
    obtain ⟨behind, later⟩ := List.pairwise_cons.mp chained
    have added := standing.add (proper item List.mem_cons_self) clear
    have rest := ih (p := b.arena.slots.length) added (fun other member => proper other (List.mem_cons_of_mem item member))
      later ?_ ?_
    · rw [Builder.addChain, openedAfter, nest_cons, enclosingOf_eq clear]
      rw [Arena.length_add, Arena.outline_add, List.append_assoc, List.singleton_append] at rest
      exact rest
    · -- What comes next stands right of the entry, which is the innermost container now.
      intro next first column stands f member
      obtain ⟨c, entry, right⟩ := behind next (List.mem_of_head? first)
      have less : c < column := right next (List.mem_singleton.mpr rfl) column stands
      rcases (mem_openedBy standing.stacked).mp member with ⟨-, left⟩ | ⟨-, own, -⟩
      · exact Nat.lt_trans (left c (by rw [entry]; rfl)) less
      · rw [entry] at own
        obtain rfl := Option.some.inj own
        exact less
    · cases items with
      | nil => exact .inl rfl
      | cons next items =>
        obtain ⟨c, entry, -⟩ := behind next List.mem_cons_self
        refine .inr ?_
        rw [openedBy, entry]
        rfl

theorem Standing.addLine (standing : b.Standing opened) (l : Line) :
    (b.addLine l).Standing (openedAfter opened b.arena.slots.length l.items) ∧
      (b.addLine l).arena.outline.nodes = b.arena.outline.nodes ++ nest opened b.arena.slots.length l.items := by
  rw [Builder.addLine]
  cases indented : indentation l.content with
  | none =>
    obtain ⟨column, -, single⟩ := Line.items_gap indented
    refine standing.addChain l.rootless_items l.chained_items ?_ (.inr standing.top_eq)
    simp [single, Line.item, Kind.column?]
  | some column =>
    have closed := standing.closeTo column
    obtain ⟨nested, frames⟩ := nest_closeTo opened b.arena.slots.length (Line.opens_items indented).first
    rw [← nested, ← frames]
    refine closed.addChain l.rootless_items l.chained_items ?_ (.inr closed.top_eq)
    intro item first c stands f member
    have own := (Line.opens_items indented).first
    rw [first, Option.bind_some, stands] at own
    obtain rfl := Option.some.inj own
    exact ((mem_closeTo standing.stacked).mp member).2

/-- The builder has read the items: it stands where their frames are open, and holds their outline. -/
structure HasRead (b : Builder) (items : List Item) : Prop where
  standing : b.Standing (openedAfter [] 1 items)
  outline : b.arena.outline = .ofItems items

theorem hasRead_start : start.HasRead [] where
  standing := {
    linked := fun i => by cases i <;> rfl
    root := rfl
    opened := rfl
    columns := nofun
    stacked := stacked_nil 1
    positive := Nat.one_pos }
  outline := rfl

theorem HasRead.addLine (read : b.HasRead items) (l : Line) : (b.addLine l).HasRead (items ++ l.items) := by
  have length : b.arena.slots.length = items.length + 1 := by
    rw [← Arena.length_outline, read.outline, Outline.length_ofItems]
  obtain ⟨standing, nodes⟩ := read.standing.addLine l
  rw [length] at standing nodes
  constructor
  · rwa [openedAfter_append, Nat.add_comm 1]
  · have whole := Outline.nodes_ofItems_append items l.items
    rw [← read.outline, ← nodes] at whole
    exact congrArg Outline.mk whole.symm

theorem HasRead.addLines (read : b.HasRead items) (lines : List Line) :
    (lines.foldl Builder.addLine b).HasRead (items ++ lines.flatMap Line.items) := by
  induction lines generalizing b items with
  | nil => simpa using read
  | cons l lines ih =>
    rw [List.foldl_cons, List.flatMap_cons, ← List.append_assoc]
    exact ih (read.addLine l)

end Builder

namespace Arena

/-- What a walk meets that has these nodes to go to. Those in the list of the next one come before the others. -/
inductive Visits (a : Arena) : List Nat → List Nat → Prop
  | done : Visits a [] []
  | next {i todo met} (inside : i < a.slots.length) : Visits a (a.children i ++ todo) met → Visits a (i :: todo) (i :: met)

variable {a : Arena} {i j : Nat} {todo met met' : List Nat}

theorem Visits.unique (walk : a.Visits todo met) (walk' : a.Visits todo met') : met = met' := by
  induction walk generalizing met' with
  | done =>
    cases walk'
    rfl
  | next _ _ ih =>
    cases walk' with
    | next _ walk' => rw [ih walk']

theorem Linked.mem_children_iff (linked : a.Linked) :
    j ∈ a.children i ↔ ∃ n, a.outline.nodes[j]? = some n ∧ i < j ∧ n.parent = some i := by
  rw [linked i, List.mem_map]
  constructor
  · rintro ⟨⟨n, j⟩, member, rfl⟩
    exact ⟨n, Outline.mem_children_iff.mp member⟩
  · rintro ⟨n, child⟩
    exact ⟨(n, j), Outline.mem_children_iff.mpr child, rfl⟩

theorem Linked.pairwise_children (linked : a.Linked) (i : Nat) : (a.children i).Pairwise (· < ·) := by
  rw [linked i]
  exact List.pairwise_map.mpr (a.outline.pairwise_children i)

/-- A walk down the lists meets the nodes in preorder. -/
theorem Linked.visits (linked : a.Linked) (inside : i < a.slots.length) (later : a.Visits todo met) :
    a.Visits (i :: todo) (a.outline.preorder i ++ met) := by
  induction i using Outline.preorder.induct a.outline generalizing todo met with
  | case1 i ih =>
    rw [Outline.preorder_eq]
    refine .next inside ?_
    rw [linked i]
    have below (part : List (Node × Nat)) (within : ∀ child ∈ part, child ∈ a.outline.children i) :
        a.Visits (part.map Prod.snd ++ todo) ((part.flatMap fun child => a.outline.preorder child.2) ++ met) := by
      induction part with
      | nil => exact later
      | cons child part rest =>
        obtain ⟨first, within⟩ := List.forall_mem_cons.mp within
        have bound := (Outline.bounds_of_mem_children first).2
        rw [length_outline] at bound
        rw [List.map_cons, List.cons_append, List.flatMap_cons, List.append_assoc]
        exact ih ⟨child, first⟩ bound (rest within)
    exact below _ fun _ member => member

/-- The root comes first. Every other node is listed once, by one container that comes before it and stands left of it. The
numbers are those that the nodes get on a walk down the lists. -/
structure Arranged (a : Arena) : Prop where
  root : a.outline.nodes[0]? = some ⟨⟨.root, 0, 0⟩, none⟩
  nested : ∀ j n, 0 < j → a.outline.nodes[j]? = some n → n.kind ≠ .root ∧ ∃ p x, n.parent = some p ∧ p < j ∧
    a.outline.nodes[p]? = some x ∧ x.isContainer = true ∧
    (∀ left right, x.column? = some left → n.column? = some right → left < right) ∧
    ∀ i, (a.children i).count j = if i = p then 1 else 0
  listed : ∀ i, ∀ j ∈ a.children i, i < j ∧ j < a.slots.length
  walk : ∀ met, a.Visits [0] met ↔ met = List.range a.slots.length

theorem Linked.arranged (linked : a.Linked) (proper : Rootless items) (stored : a.outline = .ofItems items) : a.Arranged where
  root := by rw [stored, Outline.getElem?_ofItems_zero]
  nested j n positive found := by
    rw [stored] at found ⊢
    obtain ⟨p, x, parent, less, container⟩ := Outline.exists_parent found positive
    refine ⟨Outline.ne_root_of_pos proper positive found, p, x, parent, less, container,
      Outline.isContainer_of_parent proper found parent container,
      fun left right => Outline.column_lt_of_parent proper found parent container, fun i => ?_⟩
    rw [linked i, stored, Outline.count_children found parent]
  listed i j member := by
    obtain ⟨n, found, less, -⟩ := linked.mem_children_iff.mp member
    obtain ⟨bound, -⟩ := List.getElem?_eq_some_iff.mp found
    rw [length_outline] at bound
    exact ⟨less, bound⟩
  walk met := by
    have length := a.length_outline
    rw [stored, Outline.length_ofItems] at length
    have whole := linked.visits (i := 0) (by omega) .done
    rw [List.append_nil, stored, Outline.preorder_zero proper, Outline.length_ofItems, length] at whole
    exact ⟨fun walk => walk.unique whole, fun eq => eq ▸ whole⟩

theorem Linked.childNamed?_eq (linked : a.Linked) (i : Nat) (name : Text) :
    a.childNamed? i name = a.outline.childNamed? i name := by
  rw [childNamed?, linked i, List.find?_map, Outline.childNamed?]
  congr 1
  refine List.find?_congr fun child member => ?_
  obtain ⟨n, j⟩ := child
  obtain ⟨found, -⟩ := Outline.mem_children_iff.mp member
  rw [outline, List.getElem?_map] at found
  obtain ⟨slot, stored, rfl⟩ := Option.map_eq_some_iff.mp found
  simp [name?, stored]

theorem Linked.follow_eq (linked : a.Linked) (i : Nat) (path : KeyPath) : a.follow i path = a.outline.follow i path := by
  induction path generalizing i with
  | nil => rfl
  | cons key keys ih =>
    rw [follow, Outline.follow_cons, linked.childNamed?_eq]
    cases a.outline.childNamed? i key with
    | none => rfl
    | some child => exact ih child

end Arena

namespace Document

theorem hasRead (d : Document) : (d.lines.foldl Builder.addLine .start).HasRead d.items := Builder.hasRead_start.addLines d.lines

theorem outline_arena (d : Document) : d.arena.outline = d.outline := d.hasRead.outline

theorem linked_arena (d : Document) : d.arena.Linked := d.hasRead.standing.linked

/-- What the arena lists below a node is what is read off the outline. -/
theorem children_arena (d : Document) (i : Nat) : d.arena.children i = (d.outline.children i).map Prod.snd := by
  rw [d.linked_arena i, d.outline_arena]

theorem arranged_arena (d : Document) : d.arena.Arranged := d.linked_arena.arranged d.rootless_items d.outline_arena

end Document
end Offside
