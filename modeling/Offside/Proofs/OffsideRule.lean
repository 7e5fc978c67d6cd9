import Offside.Proofs.Items

/-! The off-side rule without a stack: a node belongs to the latest key or entry before it that stands left of it
and that no node in between, gaps left out, stands level with or left of. -/
namespace Offside

open Text

/-- The greatest number that is accepted, or the root if none is. -/
def Latest (accepts : Nat → Prop) (p : Nat) : Prop :=
  (accepts p ∧ ∀ m, accepts m → m ≤ p) ∨ (p = 0 ∧ ∀ m, ¬accepts m)

theorem Latest.congr {a b : Nat → Prop} {p : Nat} (h : ∀ m, a m ↔ b m) (latest : Latest a p) : Latest b p := by
  obtain rfl : a = b := funext fun m => propext (h m)
  exact latest

namespace Outline

/-- A key or an entry above node `i`, with every node between them right of it, gaps left out. -/
structure OpenAt (o : Outline) (i m : Nat) (n : Node) : Prop where
  found : o.nodes[m]? = some n
  opener : n.isContainer = true ∧ n.kind ≠ .root
  above : m < i
  between : ∀ k x, m < k → k < i → o.nodes[k]? = some x → x.isGap = false → n.holds x = true

theorem OpenAt.of_le {o : Outline} {i j m : Nat} {n : Node} (h : o.OpenAt i m n) (above : m < j) (le : j ≤ i) :
    o.OpenAt j m n :=
  ⟨h.found, h.opener, above, fun k x lower upper => h.between k x lower (Nat.lt_of_lt_of_le upper le)⟩

end Outline

/-- Items of lines: the root is none of them. -/
def Rootless (items : List Item) : Prop := ∀ item ∈ items, item.kind ≠ .root

theorem Kind.column?_of_isGap {kind : Kind} (root : kind ≠ .root) (h : kind.isGap = false) :
    ∃ column, kind.column? = some column := by
  cases kind <;> simp_all [column?, isGap]

theorem Kind.ne_root_of_column? {kind : Kind} {column : Nat} (h : kind.column? = some column) : kind ≠ .root := by
  rintro rfl
  simp [column?] at h

theorem Node.holds_of_column? {n x : Node} {column c : Nat} (hn : n.column? = some column)
    (hx : x.column? = some c) : n.holds x = true ↔ column < c := by
  simp [holds, hn, hx]

/-- The innermost open frame is the latest one. -/
theorem latest_enclosing {opened : List Frame} {next : Nat} (valid : Stacked opened next) :
    Latest (fun m => ∃ column, ⟨m, column⟩ ∈ opened) (enclosing opened) := by
  rcases enclosing_cases valid with ⟨rfl, eq⟩ | ⟨f, member, eq, last⟩
  · exact .inr ⟨eq, by simp⟩
  · refine .inl ⟨⟨f.column, by rw [eq]; exact member⟩, ?_⟩
    rintro m ⟨column, other⟩
    rw [eq]
    exact (last _ other).1

namespace Outline

variable {items : List Item}

theorem ne_root_of_pos (proper : Rootless items) {i : Nat} {n : Node} (positive : 0 < i)
    (found : (ofItems items).nodes[i]? = some n) : n.kind ≠ .root := by
  obtain ⟨k, item, -, at', rfl⟩ := exists_item_of_pos positive found
  exact proper item (List.mem_of_getElem? at')

theorem eq_zero_of_root (proper : Rootless items) {i : Nat} {n : Node} (found : (ofItems items).nodes[i]? = some n)
    (root : n.kind = .root) : i = 0 := by
  by_contra other
  exact ne_root_of_pos proper (Nat.pos_of_ne_zero other) found root

theorem openAt_of_standRight (proper : Rootless items) {m k column : Nat} {n : Node}
    (found : (ofItems items).nodes[m]? = some n) (container : n.isContainer = true)
    (stands : n.column? = some column) (before : m ≤ k) (right : StandRight column ((items.take k).drop m)) :
    (ofItems items).OpenAt (k + 1) m n := by
  refine ⟨found, ⟨container, Kind.ne_root_of_column? stands⟩, Nat.lt_succ_of_le before, ?_⟩
  intro i x lower upper later visible
  obtain ⟨i, rfl⟩ := Nat.exists_eq_add_of_lt lower
  rw [getElem?_ofItems_succ] at later
  obtain ⟨item, at', rfl⟩ := Option.map_eq_some_iff.mp later
  have member : item ∈ (items.take k).drop m := by
    refine List.mem_iff_getElem?.mpr ⟨i, ?_⟩
    rw [List.getElem?_drop, List.getElem?_take, if_pos (by omega), at']
  obtain ⟨c, stands'⟩ := Kind.column?_of_isGap (proper item (List.mem_of_getElem? at')) visible
  exact (Node.holds_of_column? (x := ⟨item, _⟩) stands stands').mpr (right item member c stands')

/-- The frames on the stack are the open nodes with their columns. -/
theorem mem_openedAfter_iff_openAt (proper : Rootless items) (k m column : Nat) :
    ⟨m, column⟩ ∈ openedAfter [] 1 (items.take k) ↔
      ∃ n, (ofItems items).OpenAt (k + 1) m n ∧ n.column? = some column := by
  rw [mem_openedAfter (stacked_nil 1) (Nat.zero_lt_one)]
  simp only [List.not_mem_nil, false_and, false_or]
  constructor
  · rintro ⟨j, item, found, holds, stands, rfl, right⟩
    rw [List.getElem?_take] at found
    split at found
    next less =>
      have node : (ofItems items).nodes[1 + j]? = some ⟨item, some (enclosingOf (openedAfter [] 1 (items.take j)) item)⟩ := by
        rw [Nat.add_comm, getElem?_ofItems_succ, found, Option.map_some]
      rw [Nat.add_comm j] at right
      exact ⟨_, openAt_of_standRight proper node holds stands (by omega) right, stands⟩
    next => contradiction
  · rintro ⟨n, ⟨found, ⟨holds, root⟩, above, between⟩, stands⟩
    cases m with
    | zero =>
      obtain rfl := Option.some.inj ((getElem?_ofItems_zero items).symm.trans found)
      exact absurd rfl root
    | succ j =>
      rw [getElem?_ofItems_succ] at found
      obtain ⟨item, at', rfl⟩ := Option.map_eq_some_iff.mp found
      refine ⟨j, item, ?_, holds, stands, Nat.add_comm _ _, fun other member c stands' => ?_⟩
      · rw [List.getElem?_take, if_pos (by omega), at']
      · obtain ⟨i, later⟩ := List.mem_iff_getElem?.mp member
        rw [List.getElem?_drop, List.getElem?_take] at later
        split at later
        next less =>
          have node := getElem?_ofItems_succ items (j + 1 + i)
          rw [later, Option.map_some] at node
          have := between _ _ (by omega) (by omega) node (Kind.isGap_of_column? stands')
          exact (Node.holds_of_column? (n := ⟨item, _⟩) (x := ⟨other, _⟩) stands stands').mp this
        next => contradiction

theorem OpenAt.column? {o : Outline} {i m : Nat} {n : Node} (h : o.OpenAt i m n) :
    ∃ column, n.column? = some column := by
  obtain ⟨holds, root⟩ := h.opener
  have gap : n.kind.isGap = false := by
    cases eq : n.kind <;> simp_all [Node.isContainer, Kind.isContainer, Kind.isGap]
  exact Kind.column?_of_isGap root gap

theorem latest_of_gap (proper : Rootless items) (k : Nat) {item : Item} (gap : item.kind.column? = none) :
    Latest (fun m => ∃ n, (ofItems items).OpenAt (k + 1) m n)
      (enclosingOf (openedAfter [] 1 (items.take k)) item) := by
  have valid := (stacked_nil 1).openedAfter (items.take k) Nat.zero_lt_one
  rw [enclosingOf, gap]
  refine (latest_enclosing valid).congr fun m => ?_
  simp only [mem_openedAfter_iff_openAt proper k]
  constructor
  · rintro ⟨column, n, opened, -⟩
    exact ⟨n, opened⟩
  · rintro ⟨n, opened⟩
    obtain ⟨column, stands⟩ := opened.column?
    exact ⟨column, n, opened, stands⟩

theorem latest_of_column (proper : Rootless items) (k : Nat) {column : Nat} {item : Item}
    (stands : item.kind.column? = some column) (parent : Option Nat) :
    Latest (fun m => ∃ n, (ofItems items).OpenAt (k + 1) m n ∧ n.holds ⟨item, parent⟩ = true)
      (enclosingOf (openedAfter [] 1 (items.take k)) item) := by
  have valid := (stacked_nil 1).openedAfter (items.take k) Nat.zero_lt_one
  rw [enclosingOf, stands]
  refine (latest_enclosing (valid.closeTo column)).congr fun m => ?_
  simp only [mem_closeTo valid, mem_openedAfter_iff_openAt proper k]
  constructor
  · rintro ⟨c, ⟨n, opened, at'⟩, left⟩
    exact ⟨n, opened, (Node.holds_of_column? (x := ⟨item, parent⟩) at' stands).mpr left⟩
  · rintro ⟨n, opened, right⟩
    obtain ⟨c, at'⟩ := opened.column?
    exact ⟨c, ⟨n, opened, at'⟩, (Node.holds_of_column? (x := ⟨item, parent⟩) at' stands).mp right⟩

/-- The container of a node is the latest open node that stands left of it. -/
theorem latest_parent (proper : Rootless items) {i : Nat} {n : Node} (found : (ofItems items).nodes[i]? = some n)
    (positive : 0 < i) (visible : n.isGap = false) :
    ∃ p, n.parent = some p ∧ Latest (fun m => ∃ x, (ofItems items).OpenAt i m x ∧ x.holds n = true) p := by
  obtain ⟨column, stands⟩ := Kind.column?_of_isGap (ne_root_of_pos proper positive found) visible
  obtain ⟨k, item, rfl, -, rfl⟩ := exists_item_of_pos positive found
  exact ⟨_, rfl, latest_of_column proper k stands _⟩

end Outline

theorem Line.rootless_items (l : Line) : Rootless l.items := by
  intro item member
  rcases Line.mem_items_cases member with ⟨column, -, rfl⟩ | ⟨column, placed⟩
  · simp [Line.item]
  · exact Kind.ne_root_of_column? placed.stands

namespace Document

theorem rootless_items (d : Document) : Rootless d.items := by
  intro item member
  obtain ⟨l, -, onLine⟩ := List.mem_flatMap.mp member
  exact l.rootless_items item onLine

theorem mem_items_of_start {d : Document} {upper lower : List Line} {l : Line} {item : Item} {k : Nat}
    (split : d.lines = upper ++ l :: lower) (found : d.items[k]? = some item)
    (begins : l.start ≤ item.start) (ends : item.start ≤ l.stop) :
    (upper.flatMap Line.items).length ≤ k ∧ k < (upper.flatMap Line.items).length + l.items.length := by
  obtain ⟨above, below⟩ := apart_of_split split
  have items : d.items = upper.flatMap Line.items ++ (l.items ++ lower.flatMap Line.items) := by
    simp [Document.items, split]
  rw [items] at found
  constructor
  · by_contra early
    rw [List.getElem?_append_left (by omega)] at found
    obtain ⟨other, member, onLine⟩ := List.mem_flatMap.mp (List.mem_of_getElem? found)
    have := above other member
    have := Line.bounds_of_mem_items onLine
    omega
  · by_contra late
    rw [List.getElem?_append_right (by omega), List.getElem?_append_right (by omega)] at found
    obtain ⟨other, member, onLine⟩ := List.mem_flatMap.mp (List.mem_of_getElem? found)
    have := below other member
    have := Line.bounds_of_mem_items onLine
    omega

/-- Every node but the root belongs where the off-side rule puts it, and a blank or comment line contributes
exactly one node, a gap. -/
theorem parent_latest_open (d : Document) :
    (∀ i n, 0 < i → d.outline.nodes[i]? = some n → n.isGap = false →
      ∃ p, n.parent = some p ∧
        Latest (fun m => ∃ x, d.outline.OpenAt i m x ∧ x.holds n = true) p) ∧
    ∀ l ∈ d.lines, Text.indentation l.content = none →
      ∃ i n p, 0 < i ∧ d.outline.nodes[i]? = some n ∧ n.kind = .gap ∧
        l.start ≤ n.start ∧ n.start ≤ l.stop ∧ n.stop = l.stop ∧
        n.parent = some p ∧ Latest (fun m => ∃ x, d.outline.OpenAt i m x) p ∧
        ∀ j x, 0 < j → d.outline.nodes[j]? = some x → l.start ≤ x.start → x.start ≤ l.stop → j = i := by
  rw [outline_eq]
  constructor
  · exact fun i n positive found visible => Outline.latest_parent d.rootless_items found positive visible
  · intro l member blank
    obtain ⟨upper, lower, split⟩ := List.append_of_mem member
    obtain ⟨column, bound, single⟩ := Line.items_gap blank
    have found : d.items[(upper.flatMap Line.items).length]? = some (l.item .gap column) := by
      simp [items, split, single]
    have node := Outline.getElem?_ofItems_succ d.items (upper.flatMap Line.items).length
    rw [found, Option.map_some] at node
    refine ⟨_, _, _, Nat.succ_pos _, node, rfl, Nat.le_add_right _ _, ?_, rfl, rfl,
      Outline.latest_of_gap d.rootless_items _ rfl, ?_⟩
    · simp only [Line.item, Line.stop]; omega
    · intro j x positive other begins ends
      obtain ⟨k, item, rfl, at', rfl⟩ := Outline.exists_item_of_pos positive other
      have := mem_items_of_start split at' begins ends
      rw [single, List.length_singleton] at this
      omega

end Document
end Offside
