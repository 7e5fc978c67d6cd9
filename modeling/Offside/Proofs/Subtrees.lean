import Offside.Proofs.Enclosures
import Offside.Proofs.Sweeps

/-! Where the block of a node ends. The end of a key or an entry is the greatest end of what lies below it, whatever begins
between the two lies below, and what begins next stands no further right. -/
namespace Offside

namespace Document

variable {d : Document} {i j k : Nat} {n x : Node} {item : Item} {upper lower : List Line} {l : Line}

theorem start_cases (split : d.lines = upper ++ l :: lower) (found : d.items[k]? = some item)
    (visible : item.kind.isGap = false) :
    k < ((upper ++ [l]).flatMap Line.items).length ∧ item.start < l.stop ∧ item.stop ≤ l.stop ∨
      ((upper ++ [l]).flatMap Line.items).length ≤ k ∧ l.stop < item.start := by
  rw [items_of_split split, List.getElem?_append] at found
  split at found
  next early =>
    have member := List.mem_of_getElem? found
    have ends := stop_le_of_mem split member
    obtain ⟨q, -, onLine⟩ := List.mem_flatMap.mp member
    have := Line.start_lt_stop onLine visible
    exact .inl ⟨early, by omega, ends⟩
  next late =>
    obtain ⟨q, below, onLine⟩ := List.mem_flatMap.mp (List.mem_of_getElem? found)
    have := (apart_of_split split).2 q below
    have := (Line.bounds_of_mem_items onLine).1
    exact .inr ⟨by omega, by omega⟩

namespace BlockEnds

variable {column : Nat}

theorem exists_first (ends : d.BlockEnds i (some column) upper l lower) (found : d.items[k]? = some item)
    (visible : item.kind.isGap = false) (late : ((upper ++ [l]).flatMap Line.items).length ≤ k) :
    ∃ s first c, ((upper ++ [l]).flatMap Line.items).length ≤ s ∧ s ≤ k ∧ d.items[s]? = some first ∧
      first.kind.column? = some c ∧ c ≤ column := by
  obtain ⟨c, stands⟩ := Kind.column?_of_isGap (d.rootless_items item (List.mem_of_getElem? found)) visible
  have items := items_of_split ends.split
  rw [items, List.getElem?_append_right late] at found
  obtain ⟨s, first, c, le, earlier, stands, left⟩ := StartsBy.exists_le ends.outside found stands
  refine ⟨((upper ++ [l]).flatMap Line.items).length + s, first, c, Nat.le_add_right _ _, by omega, ?_, stands, left⟩
  rw [items, List.getElem?_append_right (Nat.le_add_right _ _), Nat.add_sub_cancel_left, earlier]

/-- A node is open up to the end of its block and no further, so that just the rest of the block lies below it. -/
theorem below_iff (found : d.outline.nodes[i]? = some n) (container : n.isContainer = true)
    (stands : n.column? = some column) (ends : d.BlockEnds i (some column) upper l lower)
    (at' : d.outline.nodes[j]? = some x) (visible : x.isGap = false) :
    d.outline.Below i j ↔ i < j ∧ j ≤ ((upper ++ [l]).flatMap Line.items).length := by
  rw [outline_eq] at found at' ⊢
  rw [Outline.below_iff_holds d.rootless_items found container at']
  refine and_congr_right fun above => ⟨fun held => ?_, fun within k y lower upper other seen => ?_⟩
  · by_contra beyond
    have here := Outline.getElem?_pred_of_pos at' (by omega)
    obtain ⟨s, first, c, late, le, there, place, left⟩ := ends.exists_first here visible (by omega)
    have node := Outline.getElem?_ofItems_succ d.items s
    rw [there, Option.map_some] at node
    have inside := ends.inside
    have right := held _ _ (by omega) (by omega) node (Kind.isGap_of_column? place)
    have := (Node.holds_of_column? (x := ⟨first, _⟩) stands place).mp right
    omega
  · refine (Outline.openAt_of_standRight d.rootless_items found container stands (Nat.le_of_lt above) ?_).between k y lower
      (Nat.lt_succ_of_le upper) other seen
    intro item member
    refine ends.right column rfl item ?_
    rw [items_of_split ends.split, List.take_append_of_le_length within, List.drop_take] at member
    exact List.mem_of_mem_take member

theorem below_iff_start (found : d.outline.nodes[i]? = some n) (container : n.isContainer = true)
    (stands : n.column? = some column) (ends : d.BlockEnds i (some column) upper l lower)
    (at' : d.outline.nodes[j]? = some x) (visible : x.isGap = false) :
    d.outline.Below i j ↔ n.start < x.start ∧ x.start < l.stop := by
  rw [ends.below_iff found container stands at' visible]
  rcases Nat.eq_zero_or_pos j with rfl | later
  · obtain rfl := Option.some.inj ((Outline.getElem?_ofItems_zero d.items).symm.trans at')
    simp
  · have positive := Outline.pos_of_column? found stands
    have here := Outline.getElem?_pred_of_pos at' later
    have there := Outline.getElem?_pred_of_pos found positive
    have order := start_lt_start_iff there here (Kind.isGap_of_isContainer container) visible
    have side := start_cases ends.split here visible
    constructor
    · rintro ⟨above, within⟩
      exact ⟨order.mpr (by omega), by omega⟩
    · rintro ⟨behind, before⟩
      have := order.mp behind
      omega

theorem column_le (ends : d.BlockEnds i (some column) upper l lower)
    (at' : d.outline.nodes[j]? = some x) (visible : x.isGap = false) (behind : l.stop < x.start)
    (first : ∀ k y, k < j → d.outline.nodes[k]? = some y → y.isGap = false → y.start ≤ l.stop) :
    ∃ c, x.column? = some c ∧ c ≤ column := by
  rw [outline_eq] at at' first
  rcases Nat.eq_zero_or_pos j with rfl | later
  · obtain rfl := Option.some.inj ((Outline.getElem?_ofItems_zero d.items).symm.trans at')
    contradiction
  · have here := Outline.getElem?_pred_of_pos at' later
    have side := start_cases ends.split here visible
    obtain ⟨s, item, c, late, le, there, place, left⟩ := ends.exists_first here visible (by omega)
    have node := Outline.getElem?_ofItems_succ d.items s
    rw [there, Option.map_some] at node
    rcases Nat.lt_or_ge (s + 1) j with earlier | same
    · have before : item.start ≤ l.stop := first (s + 1) _ earlier node (Kind.isGap_of_column? place)
      have := start_cases ends.split there (Kind.isGap_of_column? place)
      omega
    · obtain rfl : j = s + 1 := by omega
      obtain rfl := Option.some.inj (at'.symm.trans node)
      exact ⟨c, place, left⟩

end BlockEnds

theorem exists_blockEnds_of_pos (positive : 0 < i) (found : d.outline.nodes[i]? = some n)
    (container : n.isContainer = true) : ∃ column upper l lower, n.column? = some column ∧
      d.BlockEnds i (some column) upper l lower ∧ d.outline.blockEnd i = l.stop := by
  have root := Outline.ne_root_of_pos d.rootless_items positive found
  obtain ⟨column, stands⟩ := Kind.column?_of_isGap root (Kind.isGap_of_isContainer container)
  have written : ∃ l ∈ d.lines, l.Written := by
    obtain ⟨l, member, onLine⟩ := List.mem_flatMap.mp (mem_items_of_node found root)
    exact ⟨l, member, Line.written_of_mem_items onLine stands⟩
  obtain ⟨upper, l, lower, ends⟩ := exists_blockEnds found container written
  rw [show n.column? = some column from stands] at ends
  exact ⟨column, upper, l, lower, stands, ends, BlockEnds.blockEnd found container (stands ▸ ends)⟩

/-- The block of the root ends with the last written line. -/
theorem blockEnd_root (d : Document) :
    d.outline.blockEnd 0 = ((d.lines.filter fun l => l.Written).getLast?.map Line.stop).getD 0 := by
  have root := Outline.getElem?_ofItems_zero d.items
  rw [← outline_eq] at root
  by_cases written : ∃ l ∈ d.lines, l.Written
  · obtain ⟨upper, l, lower, ends⟩ := exists_blockEnds root rfl written
    have unwritten : lower.filter (fun l => l.Written) = [] := by
      refine List.filter_eq_nil_iff.mpr fun q below holds => ?_
      obtain ⟨item, onLine, column, stands⟩ := (of_decide_eq_true holds).exists_item
      have gap := ends.outside item (List.mem_flatMap.mpr ⟨q, below, onLine⟩)
      rw [stands] at gap
      contradiction
    rw [BlockEnds.blockEnd root rfl ends, ends.split, List.filter_append, List.filter_cons_of_pos (by simpa using ends.written),
      unwritten, List.getLast?_concat]
    rfl
  · have unwritten : d.lines.filter (fun l => l.Written) = [] :=
      List.filter_eq_nil_iff.mpr fun q member holds => written ⟨q, member, of_decide_eq_true holds⟩
    have gaps : StartsOutside none d.items :=
      Line.gaps_of_not_written d.lines fun q member holds => written ⟨q, member, holds⟩
    have block : (d.outline.block 0).map Node.toItem = [] := by
      rw [outline_eq, Outline.block_ofItems root rfl]
      exact blockOf_outside d.rootless_items gaps
    rw [unwritten, Outline.blockEnd, List.map_eq_nil_iff.mp block, root]
    rfl

/-- The block of a key or an entry ends with the last of what lies below the node, whatever begins between the two lies below
the node, and what begins next stands no further right. The block of the root ends with the last written line. One sweep
finds all these ends. -/
theorem blockEnd_delimits (d : Document) :
    (∀ (i : Nat) (n : Node), 0 < i → d.outline.nodes[i]? = some n → n.isContainer = true →
      IsGreatest (d.outline.ends i) (d.outline.blockEnd i) ∧
      (∀ (j : Nat) (x : Node), d.outline.nodes[j]? = some x → x.isGap = false →
        (d.outline.Below i j ↔ n.start < x.start ∧ x.start < d.outline.blockEnd i)) ∧
      ∀ (j : Nat) (x : Node), d.outline.nodes[j]? = some x → x.isGap = false → d.outline.blockEnd i < x.start →
        (∀ (k : Nat) (y : Node), k < j → d.outline.nodes[k]? = some y → y.isGap = false → y.start ≤ d.outline.blockEnd i) →
        ∃ column c, n.column? = some column ∧ x.column? = some c ∧ c ≤ column) ∧
    d.outline.blockEnd 0 = ((d.lines.filter fun l => l.Written).getLast?.map Line.stop).getD 0 ∧
    ∀ (i : Nat) (n : Node), d.outline.nodes[i]? = some n → (d.outline.sweep 0)[i]? = some (d.outline.blockEnd i) := by
  refine ⟨fun i n positive found container => ?_, d.blockEnd_root, fun i n => Outline.sweep_zero d.rootless_items⟩
  have greatest := Outline.isGreatest_blockEnd d.rootless_items found
  rw [← outline_eq] at greatest
  obtain ⟨column, upper, l, lower, stands, ends, stop⟩ := exists_blockEnds_of_pos positive found container
  refine ⟨greatest, fun j x at' visible => ?_, fun j x at' visible behind first => ?_⟩
  · rw [stop]
    exact ends.below_iff_start found container stands at' visible
  · rw [stop] at behind first
    obtain ⟨c, place, left⟩ := ends.column_le at' visible behind first
    exact ⟨column, c, stands, place, left⟩

/-- A line that stands right of the key belongs to the key's block, and closes the entry above it. -/
theorem blockEnd_delimits_ragged :
    let d : Document := ⟨"a:\n  - b\n\n # x\n c\nd\n".toList⟩
    IsGreatest (d.outline.ends 1) 17 ∧ d.outline.Below 1 6 ∧ ¬d.outline.Below 2 6 := by
  intro d
  obtain ⟨blocks, -⟩ := blockEnd_delimits d
  have line : d.outline.nodes[6]? = some ⟨⟨.raw 1, 16, 17⟩, some 1⟩ := by decide
  have outer : d.outline.blockEnd 1 = 17 := by decide
  have inner : d.outline.blockEnd 2 = 8 := by decide
  obtain ⟨greatest, below, -⟩ := blocks 1 ⟨⟨.key 0 "a".toList 1, 0, 2⟩, some 0⟩ (by decide) (by decide) rfl
  obtain ⟨-, below', -⟩ := blocks 2 ⟨⟨.entry 2, 5, 8⟩, some 1⟩ (by decide) (by decide) rfl
  rw [outer] at greatest below
  rw [inner] at below'
  exact ⟨greatest, (below 6 _ line rfl).mpr (by decide), fun beneath => absurd ((below' 6 _ line rfl).mp beneath).2 (by decide)⟩

end Document
end Offside
