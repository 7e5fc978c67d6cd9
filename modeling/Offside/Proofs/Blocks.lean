import Mathlib.Data.List.Induction
import Mathlib.Order.Bounds.Basic
import Offside.Outline.Growth
import Offside.Proofs.Grafts

/-! The block of a node in the document: it ends with a written line, everything in it stands right of the node,
and the next written line does not. -/
namespace Offside

open Text

theorem map_toItem_nest (opened : List Frame) (next : Nat) (items : List Item) :
    (nest opened next items).map Node.toItem = items := by
  induction items generalizing opened next with
  | nil => rfl
  | cons item items ih => rw [nest_cons, List.map_cons, ih]

theorem StartsBy.append {column : Nat} {a b : List Item} (gaps : ∀ item ∈ a, item.kind.column? = none)
    (h : StartsBy column b) : StartsBy column (a ++ b) := by
  induction a with
  | nil => exact h
  | cons item a ih =>
    rw [List.cons_append, StartsBy, gaps item List.mem_cons_self]
    exact ih fun other member => gaps other (List.mem_cons_of_mem _ member)

theorem openedAfter_gaps {items : List Item} (gaps : ∀ item ∈ items, item.kind.column? = none)
    (opened : List Frame) (next : Nat) : openedAfter opened next items = opened := by
  induction items generalizing next with
  | nil => rfl
  | cons item items ih =>
    have same : openedBy opened next item = opened := by rw [openedBy, gaps item List.mem_cons_self]
    rw [openedAfter, same, ih fun other member => gaps other (List.mem_cons_of_mem _ member)]

theorem Rootless.isGap {items : List Item} (proper : Rootless items) {item : Item} (member : item ∈ items)
    (h : item.kind.column? = none) : item.kind.isGap = true := by
  by_contra visible
  obtain ⟨c, stands⟩ := Kind.column?_of_isGap (proper item member) (by simpa using visible)
  simp [h] at stands

theorem Rootless.append {a b : List Item} : Rootless (a ++ b) ↔ Rootless a ∧ Rootless b := by
  simp [Rootless, or_imp, forall_and]

/-- The items of the block of a node at `column`, when `later` follows it. The root has no column. -/
def blockOf (column : Option Nat) (later : List Item) : List Item :=
  (later.filter (!·.kind.isGap)).takeWhile fun item => column.all fun c => item.kind.column?.any (c < ·)

/-- What `items` begin with does not belong to a block at `column`. -/
def StartsOutside (column : Option Nat) (items : List Item) : Prop :=
  match column with
  | none => ∀ item ∈ items, item.kind.column? = none
  | some c => StartsBy c items

theorem blockOf_outside {column : Option Nat} {items : List Item} (proper : Rootless items)
    (h : StartsOutside column items) : blockOf column items = [] := by
  induction items with
  | nil => rfl
  | cons item items ih =>
    have later : Rootless items := fun other member => proper other (List.mem_cons_of_mem _ member)
    cases stands : item.kind.column? with
    | none =>
      have gap := proper.isGap List.mem_cons_self stands
      rw [blockOf, List.filter_cons_of_neg (by simp [gap]), ← blockOf]
      refine ih later ?_
      cases column with
      | none => exact fun other member => h other (List.mem_cons_of_mem _ member)
      | some c => simpa [StartsOutside, StartsBy, stands] using h
    | some x =>
      rw [blockOf, List.filter_cons_of_pos (by simp [Kind.isGap_of_column? stands]), List.takeWhile_cons_of_neg]
      cases column with
      | none => simp [h item List.mem_cons_self] at stands
      | some c =>
        have : x ≤ c := by simpa [StartsOutside, StartsBy, stands] using h
        simpa [stands] using this

theorem blockOf_append {column : Option Nat} {a b : List Item} (proper : Rootless (a ++ b))
    (right : ∀ c, column = some c → StandRight c a) (outside : StartsOutside column b) :
    blockOf column (a ++ b) = a.filter (!·.kind.isGap) := by
  obtain ⟨properA, properB⟩ := Rootless.append.mp proper
  have inside : ∀ item ∈ a.filter (!·.kind.isGap),
      (column.all fun c => item.kind.column?.any (c < ·)) = true := by
    intro item member
    obtain ⟨member, visible⟩ := List.mem_filter.mp member
    obtain ⟨x, stands⟩ := Kind.column?_of_isGap (properA item member) (by simpa using visible)
    cases column with
    | none => rfl
    | some c => simpa [stands] using right c rfl item member x stands
  rw [blockOf, List.filter_append, List.takeWhile_append_of_pos inside, ← blockOf, blockOf_outside properB outside,
    List.append_nil]

namespace Outline

theorem block_ofItems {items : List Item} {i : Nat} {n : Node} (found : (ofItems items).nodes[i]? = some n)
    (container : n.isContainer = true) :
    ((ofItems items).block i).map Node.toItem = blockOf n.column? (items.drop i) := by
  have split : (ofItems items).nodes.drop i = n :: (ofItems items).nodes.drop (i + 1) := by
    obtain ⟨bound, eq⟩ := List.getElem?_eq_some_iff.mp found
    rw [List.drop_eq_getElem_cons bound, eq]
  have later : ((ofItems items).nodes.drop (i + 1)).map Node.toItem = items.drop i := by
    rw [ofItems, List.drop_succ_cons, List.map_drop, map_toItem_nest]
  rw [block, split]
  dsimp only
  rw [if_pos container, blockOf, ← later, List.filter_map, List.takeWhile_map]
  rfl

theorem isGreatest_foldl (nodes : List Node) (start : Nat) :
    IsGreatest {stop | start = stop ∨ ∃ x ∈ nodes, x.stop = stop} (nodes.foldl (fun stop x => max stop x.stop) start) := by
  induction nodes generalizing start with
  | nil => simp [IsGreatest, upperBounds]
  | cons y nodes ih =>
    obtain ⟨reached, greatest⟩ := ih (max start y.stop)
    have first := greatest (.inl rfl)
    rw [List.foldl_cons]
    constructor
    · rcases reached with top | ⟨x, member, eq⟩
      · rcases Nat.le_total y.stop start with le | le
        · exact .inl ((Nat.max_eq_left le).symm.trans top)
        · exact .inr ⟨y, List.mem_cons_self, (Nat.max_eq_right le).symm.trans top⟩
      · exact .inr ⟨x, List.mem_cons_of_mem _ member, eq⟩
    · rintro stop (rfl | ⟨x, member, rfl⟩)
      · exact Nat.le_trans (Nat.le_max_left _ _) first
      · rcases List.mem_cons.mp member with rfl | later
        · exact Nat.le_trans (Nat.le_max_right _ _) first
        · exact greatest (.inr ⟨x, later, rfl⟩)

/-- The end of a block is the greatest end among the node and its block. -/
theorem blockEnd_eq {o : Outline} {i stop : Nat} {n : Node} (found : o.nodes[i]? = some n) (own : n.stop ≤ stop)
    (bounded : ∀ x ∈ o.block i, x.stop ≤ stop) (reached : n.stop = stop ∨ ∃ x ∈ o.block i, x.stop = stop) :
    o.blockEnd i = stop := by
  rw [blockEnd, found, Option.map_some, Option.getD_some]
  refine (isGreatest_foldl (o.block i) n.stop).unique ⟨reached, ?_⟩
  rintro other (rfl | ⟨x, member, rfl⟩)
  · exact own
  · exact bounded x member

end Outline

/-- A line that is neither blank nor a comment. -/
def Line.Written (l : Line) : Prop := ∃ column, indentation l.content = some column

instance (l : Line) : Decidable l.Written := decidable_of_iff _ Option.isSome_iff_exists

theorem Line.not_written {l : Line} : ¬l.Written ↔ indentation l.content = none := by
  rw [Written, ← Option.isSome_iff_exists, Option.not_isSome_iff_eq_none]

theorem Line.column?_of_not_written {l : Line} (h : ¬l.Written) {item : Item} (member : item ∈ l.items) :
    item.kind.column? = none := by
  obtain ⟨column, -, eq⟩ := items_gap (not_written.mp h)
  obtain rfl : item = l.item .gap column := by simpa [eq] using member
  rfl

theorem Line.written_of_mem_items {l : Line} {item : Item} {column : Nat} (member : item ∈ l.items)
    (stands : item.kind.column? = some column) : l.Written := by
  by_contra gap
  simp [column?_of_not_written gap member] at stands

theorem Line.gaps_of_not_written (lines : List Line) (h : ∀ l ∈ lines, ¬l.Written) :
    ∀ item ∈ lines.flatMap Line.items, item.kind.column? = none := by
  intro item member
  obtain ⟨l, onLines, onLine⟩ := List.mem_flatMap.mp member
  exact column?_of_not_written (h l onLines) onLine

theorem Line.exists_last_written (lines : List Line) (h : ∃ l ∈ lines, l.Written) :
    ∃ upper l gaps, lines = upper ++ l :: gaps ∧ l.Written ∧ ∀ l ∈ gaps, ¬l.Written := by
  induction lines using List.reverseRecOn with
  | nil => simp at h
  | append_singleton lines x ih =>
    by_cases last : x.Written
    · exact ⟨lines, x, [], rfl, last, by simp⟩
    · have earlier : ∃ l ∈ lines, l.Written := by
        obtain ⟨l, member, written⟩ := h
        rcases List.mem_append.mp member with member | member
        · exact ⟨l, member, written⟩
        · exact absurd (List.mem_singleton.mp member ▸ written) last
      obtain ⟨upper, l, gaps, rfl, written, blank⟩ := ih earlier
      refine ⟨upper, l, gaps ++ [x], by simp, written, fun y member => ?_⟩
      rcases List.mem_append.mp member with member | member
      · exact blank y member
      · rwa [List.mem_singleton.mp member]

theorem Line.exists_of_item {lines : List Line} {k : Nat} {item : Item}
    (found : (lines.flatMap Line.items)[k]? = some item) :
    ∃ upper l lower j, lines = upper ++ l :: lower ∧ l.items[j]? = some item ∧
      k = (upper.flatMap Line.items).length + j := by
  induction lines generalizing k with
  | nil => simp at found
  | cons l lines ih =>
    rw [List.flatMap_cons, List.getElem?_append] at found
    split at found
    · exact ⟨[], l, lines, k, rfl, found, (Nat.zero_add k).symm⟩
    next later =>
      obtain ⟨upper, l', lower, j, rfl, at', eq⟩ := ih found
      exact ⟨l :: upper, l', lower, j, rfl, at', by rw [List.flatMap_cons, List.length_append]; omega⟩

theorem Line.column?_of_mem_items {l : Line} {column : Nat} (h : indentation l.content = some column) {item : Item}
    (member : item ∈ l.items) : ∃ c, column ≤ c ∧ item.kind.column? = some c := by
  obtain ⟨c, le, placed⟩ := (opens_items h).placed item member
  exact ⟨c, le, placed.stands⟩

/-- The line stands right of `column`, or it is a gap. -/
def Line.inner (column : Nat) (l : Line) : Bool := (indentation l.content).all (column < ·)

theorem Line.standRight_items {l : Line} {column : Nat} (h : l.inner column = true) :
    StandRight column l.items := by
  intro item member c stands
  obtain ⟨x, eq⟩ := written_of_mem_items member stands
  obtain ⟨c', le, stands'⟩ := column?_of_mem_items eq member
  obtain rfl := Option.some.inj (stands.symm.trans stands')
  have : column < x := by simpa [inner, eq] using h
  exact Nat.lt_of_lt_of_le this le

theorem Line.Written.exists_last_item {l : Line} (h : l.Written) :
    ∃ early last c, l.items = early ++ [last] ∧ last.kind.column? = some c ∧ last.stop = l.stop := by
  obtain ⟨column, indented⟩ := h
  obtain ⟨early, last, eq⟩ := (List.eq_nil_or_concat' l.items).resolve_left l.items_ne_nil
  have onLine : last ∈ l.items := by rw [eq]; exact List.mem_append_right _ List.mem_cons_self
  obtain ⟨c, -, stands⟩ := column?_of_mem_items indented onLine
  exact ⟨early, last, c, eq, stands, (bounds_of_mem_items onLine).2.2⟩

theorem Line.Written.exists_item {l : Line} (h : l.Written) :
    ∃ item ∈ l.items, ∃ column, item.kind.column? = some column := by
  obtain ⟨early, last, c, eq, stands, -⟩ := h.exists_last_item
  exact ⟨last, by rw [eq]; exact List.mem_append_right _ List.mem_cons_self, c, stands⟩

theorem Line.startsBy_items {l : Line} {column : Nat} (h : l.inner column = false) (more : List Item) :
    StartsBy column (l.items ++ more) := by
  cases eq : indentation l.content with
  | none => simp [inner, eq] at h
  | some x =>
    have first := (opens_items eq).first
    cases items : l.items with
    | nil => simp [items] at first
    | cons item rest =>
      have stands : item.kind.column? = some x := by simpa [items] using first
      rw [List.cons_append, StartsBy, stands]
      simpa [inner, eq] using h

theorem Line.standRight_drop {l : Line} {j c : Nat} {item : Item} (found : l.items[j]? = some item)
    (stands : item.kind.column? = some c) : StandRight c (l.items.drop (j + 1)) := by
  obtain ⟨bound, eq⟩ := List.getElem?_eq_some_iff.mp found
  intro other member
  cases h : indentation l.content with
  | none =>
    obtain ⟨column, -, single⟩ := items_gap h
    rw [List.drop_eq_nil_of_le (by rw [single, List.length_singleton]; omega)] at member
    contradiction
  | some column =>
    have rising := (opens_items h).rising
    rw [← List.take_append_drop j l.items, List.drop_eq_getElem_cons bound, eq, List.pairwise_append,
      List.pairwise_cons] at rising
    exact rising.2.1.1 other member c stands other List.mem_cons_self

/-- A written line and those below it, cut behind the last written line that stands right of `column`. -/
theorem Line.exists_block {q : Line} (written : q.Written) (column : Nat) (below : List Line) :
    ∃ mid l lower more, q :: below = mid ++ l :: lower ∧ l.Written ∧ mid ++ [l] = q :: more ∧
      (∀ x ∈ more, x.inner column = true) ∧ StartsBy column (lower.flatMap Line.items) := by
  obtain ⟨mid, l, gaps, run, last, blank⟩ :=
    exists_last_written (q :: below.takeWhile (inner column)) ⟨q, List.mem_cons_self, written⟩
  obtain ⟨more, eq⟩ : ∃ more, mid ++ [l] = q :: more := by
    cases mid with
    | nil => exact ⟨[], by rw [(List.cons_eq_cons.mp run).1]; rfl⟩
    | cons x mid => exact ⟨mid ++ [l], by rw [(List.cons_eq_cons.mp run).1]; rfl⟩
  have within : below.takeWhile (inner column) = more ++ gaps := by
    have : q :: below.takeWhile (inner column) = q :: more ++ gaps := by rw [← eq, run]; simp
    exact (List.cons_eq_cons.mp this).2
  refine ⟨mid, l, gaps ++ below.dropWhile (inner column), more, ?_, last, eq, fun x member => ?_, ?_⟩
  · rw [← List.cons_append, ← List.append_assoc, ← run, List.cons_append, List.takeWhile_append_dropWhile]
  · exact List.mem_takeWhile_imp (by rw [within]; exact List.mem_append_left _ member)
  · rw [List.flatMap_append]
    refine StartsBy.append (gaps_of_not_written _ blank) ?_
    cases rest : below.dropWhile (inner column) with
    | nil => trivial
    | cons x rest =>
      have outer := List.head?_dropWhile_not (inner column) below
      rw [rest] at outer
      exact startsBy_items outer _

namespace Document

/-- The block of node `i`, which stands at `column`, ends with the line `l`. -/
structure BlockEnds (d : Document) (i : Nat) (column : Option Nat) (upper : List Line) (l : Line)
    (lower : List Line) : Prop where
  split : d.lines = upper ++ l :: lower
  written : l.Written
  inside : i ≤ ((upper ++ [l]).flatMap Line.items).length
  right : ∀ c, column = some c → StandRight c (((upper ++ [l]).flatMap Line.items).drop i)
  outside : StartsOutside column (lower.flatMap Line.items)

variable {d : Document} {i : Nat} {n : Node} {upper lower : List Line} {l : Line}

theorem items_of_split (split : d.lines = upper ++ l :: lower) :
    d.items = (upper ++ [l]).flatMap Line.items ++ lower.flatMap Line.items := by
  rw [Document.items, split, ← List.flatMap_append]
  simp

theorem exists_blockEnds (found : d.outline.nodes[i]? = some n) (container : n.isContainer = true)
    (written : ∃ l ∈ d.lines, l.Written) : ∃ upper l lower, d.BlockEnds i n.column? upper l lower := by
  cases i with
  | zero =>
    obtain rfl := Option.some.inj ((Outline.getElem?_ofItems_zero d.items).symm.trans found)
    obtain ⟨upper, l, gaps, split, written, blank⟩ := Line.exists_last_written _ written
    exact ⟨upper, l, gaps, split, written, Nat.zero_le _, fun c stands => by simp [Node.column?, Kind.column?] at stands,
      Line.gaps_of_not_written _ blank⟩
  | succ k =>
    rw [outline_eq, Outline.getElem?_ofItems_succ] at found
    obtain ⟨item, at', rfl⟩ := Option.map_eq_some_iff.mp found
    obtain ⟨above, q, below, j, split, onLine, rfl⟩ := Line.exists_of_item at'
    obtain ⟨c, stands⟩ := Kind.column?_of_isGap (d.rootless_items item (List.mem_of_getElem? at'))
      (Kind.isGap_of_isContainer container)
    have written := Line.written_of_mem_items (List.mem_of_getElem? onLine) stands
    obtain ⟨mid, l, lower, more, run, last, eq, inner, starts⟩ := Line.exists_block written c below
    have whole : (above ++ mid ++ [l]).flatMap Line.items =
        above.flatMap Line.items ++ (q.items ++ more.flatMap Line.items) := by
      rw [List.append_assoc, eq, List.flatMap_append, List.flatMap_cons]
    have bound : j < q.items.length := (List.getElem?_eq_some_iff.mp onLine).1
    refine ⟨above ++ mid, l, lower, by rw [split, run, List.append_assoc], last, ?_, ?_, ?_⟩
    · rw [whole, List.length_append, List.length_append]
      omega
    · rintro c' stands'
      obtain rfl : c = c' := Option.some.inj (stands.symm.trans stands')
      rw [whole, Nat.add_assoc, List.drop_append, List.drop_eq_nil_of_le (by omega), List.nil_append,
        Nat.add_sub_cancel_left, List.drop_append_of_le_length (by omega), standRight_append]
      refine ⟨Line.standRight_drop onLine stands, fun other member => ?_⟩
      obtain ⟨x, onLines, onLine⟩ := List.mem_flatMap.mp member
      exact Line.standRight_items (inner x onLines) other onLine
    · rwa [show (Node.column? ⟨item, _⟩) = some c from stands]

theorem stop_le_of_mem (split : d.lines = upper ++ l :: lower) {item : Item}
    (member : item ∈ (upper ++ [l]).flatMap Line.items) : item.stop ≤ l.stop := by
  obtain ⟨x, onLines, onLine⟩ := List.mem_flatMap.mp member
  have ends := (Line.bounds_of_mem_items onLine).2.2
  rcases List.mem_append.mp onLines with earlier | last
  · have := (apart_of_split split).1 x earlier
    have : l.start ≤ l.stop := Nat.le_add_right _ _
    omega
  · rw [ends, List.mem_singleton.mp last]

/-- The block of a node has the items behind it up to the last line of the block, less the gaps. -/
theorem BlockEnds.map_block (found : d.outline.nodes[i]? = some n) (container : n.isContainer = true)
    (ends : d.BlockEnds i n.column? upper l lower) : (d.outline.block i).map Node.toItem =
      (((upper ++ [l]).flatMap Line.items).drop i).filter (!·.kind.isGap) := by
  have items := items_of_split ends.split
  rw [outline_eq, items] at found
  rw [outline_eq, items, Outline.block_ofItems found container, List.drop_append_of_le_length ends.inside]
  refine blockOf_append (fun item member => ?_) ends.right ends.outside
  rw [← List.drop_append_of_le_length ends.inside, ← items] at member
  exact d.rootless_items item (List.mem_of_mem_drop member)

theorem BlockEnds.blockEnd (found : d.outline.nodes[i]? = some n) (container : n.isContainer = true)
    (ends : d.BlockEnds i n.column? upper l lower) : d.outline.blockEnd i = l.stop := by
  have items := items_of_split ends.split
  -- The last item of all stands on the last line. It is the node itself or in its block.
  obtain ⟨before, last, c, eq, stands, stop⟩ := ends.written.exists_last_item
  have split : (upper ++ [l]).flatMap Line.items = upper.flatMap Line.items ++ before ++ [last] := by
    rw [List.flatMap_append, List.flatMap_singleton, eq, List.append_assoc]
  have inBlock {item : Item} : item ∈ (d.outline.block i).map Node.toItem ↔
      item ∈ ((upper ++ [l]).flatMap Line.items).drop i ∧ item.kind.isGap = false := by
    rw [ends.map_block found container, List.mem_filter, Bool.not_eq_true']
  have bound := ends.inside
  rw [split, List.length_append, List.length_singleton] at bound
  refine Outline.blockEnd_eq found ?_ (fun x member => ?_) ?_
  · cases i with
    | zero =>
      obtain rfl := Option.some.inj ((Outline.getElem?_ofItems_zero d.items).symm.trans found)
      exact Nat.zero_le _
    | succ k =>
      rw [outline_eq, items, Outline.getElem?_ofItems_succ, List.getElem?_append_left ends.inside] at found
      obtain ⟨item, at', rfl⟩ := Option.map_eq_some_iff.mp found
      exact stop_le_of_mem ends.split (List.mem_of_getElem? at')
  · have := inBlock.mp (List.mem_map_of_mem member)
    exact stop_le_of_mem ends.split (List.mem_of_mem_drop this.1)
  · rcases Nat.lt_or_eq_of_le bound with within | self
    · have member : last ∈ (d.outline.block i).map Node.toItem := by
        rw [inBlock, split, List.drop_append_of_le_length (Nat.le_of_lt_succ within)]
        exact ⟨List.mem_append_right _ List.mem_cons_self, Kind.isGap_of_column? stands⟩
      obtain ⟨x, onBlock, rfl⟩ := List.mem_map.mp member
      exact .inr ⟨x, onBlock, stop⟩
    · subst self
      rw [outline_eq, items, Outline.getElem?_ofItems_succ, List.getElem?_append_left ends.inside, split] at found
      simp only [List.getElem?_concat_length, Option.map_some, Option.some.injEq] at found
      exact .inl (by rw [← found]; exact stop)

theorem firstChild?_root (written : l.Written) (member : l ∈ d.lines) : (d.outline.firstChild? 0).isSome = true := by
  obtain ⟨item, onLine, x, stands⟩ := written.exists_item
  have visible : ∃ item ∈ d.items, item.kind.column?.isSome = true :=
    ⟨item, List.mem_flatMap.mpr ⟨l, member, onLine⟩, by rw [stands]; rfl⟩
  obtain ⟨first, found⟩ := Option.isSome_iff_exists.mp (List.find?_isSome.mpr visible)
  obtain ⟨stands, above, below, split, gaps⟩ := List.find?_eq_some_iff_append.mp found
  obtain ⟨c, stands⟩ := Option.isSome_iff_exists.mp stands
  have gaps : ∀ item ∈ above, item.kind.column? = none := by simpa using gaps
  have node : d.outline.nodes[above.length + 1]? = some ⟨first, some 0⟩ := by
    rw [outline_eq, Outline.getElem?_ofItems_succ, split]
    simp [openedAfter_gaps gaps, enclosingOf, stands, closeTo, enclosing]
  have child : (⟨first, some 0⟩, above.length + 1) ∈ d.outline.realChildren 0 := by
    refine List.mem_filter.mpr ⟨List.mem_filter.mpr ⟨List.mem_zipIdx_iff_getElem?.mpr node, by simp⟩, ?_⟩
    simp [Node.isGap, Kind.isGap_of_column? stands]
  rw [Outline.firstChild?, List.isSome_head?]
  exact List.ne_nil_of_mem child

theorem growthOffset_eq (found : d.outline.nodes[i]? = some n) (container : n.isContainer = true)
    (ends : d.BlockEnds i n.column? upper l lower) : d.outline.growthOffset d i = .ok l.stop := by
  have member : l ∈ d.lines := by rw [ends.split]; simp
  have visited := firstChild?_root ends.written member
  have grows : ¬(d.outline.kindOf i = .root ∧ (d.outline.firstChild? i).isNone = true) := by
    rintro ⟨root, childless⟩
    rw [Outline.kindOf, found, Option.map_some, Option.getD_some] at root
    obtain rfl := Outline.eq_zero_of_root d.rootless_items found root
    rw [Option.isNone_iff_eq_none.mp childless] at visited
    contradiction
  obtain ⟨above, tail, cut⟩ := exists_cut ends.split
  obtain ⟨column, written⟩ := ends.written
  have upTo : d.lines.take (upper.length + 1) = upper ++ [l] := by
    rw [ends.split, List.take_length_add_append]
    rfl
  rw [Outline.growthOffset, if_neg grows, ends.blockEnd found container, lineOf_stop cut]
  simp [bind, Except.bind, pure, Except.pure, upTo, written]

end Document

end Offside
