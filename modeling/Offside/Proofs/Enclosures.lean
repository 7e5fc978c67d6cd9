import Offside.Proofs.Blocks
import Offside.Proofs.Contexts
import Offside.Proofs.Drafts

/-! The context of a place is the container of whatever stands there: of the node that begins there, and of what a
line would open there if it went on differently. -/
namespace Offside

open Text Character

/-- Of two items that are no gaps, the later one begins later. -/
def BeginsBefore (a b : Item) : Prop := a.kind.isGap = false → b.kind.isGap = false → a.start < b.start

theorem Line.pairwise_beginsBefore (l : Line) : l.items.Pairwise BeginsBefore := by
  cases written : indentation l.content with
  | none =>
    obtain ⟨column, -, single⟩ := items_gap written
    simp [single]
  | some column =>
    refine (opens_items written).rising.imp_of_mem ?_
    intro a b inA inB rising visibleA visibleB
    obtain ⟨x, placedA⟩ := placed_of_isGap inA visibleA
    obtain ⟨y, placedB⟩ := placed_of_isGap inB visibleB
    have further : x < y := rising x placedA.stands b List.mem_cons_self y placedB.stands
    rw [placedA.start, placedB.start]
    omega

namespace Document

variable {d : Document} {upper lower : List Line} {l : Line}

theorem pairwise_beginsBefore (d : Document) : d.items.Pairwise BeginsBefore := by
  rw [items, List.pairwise_flatMap]
  constructor
  · intro l _
    exact l.pairwise_beginsBefore
  · rw [lines_eq]
    apply (Line.read_pairwise 0 d.text).imp
    intro x y below a onX b onY _ _
    have := Line.bounds_of_mem_items onX
    have := Line.bounds_of_mem_items onY
    omega

theorem start_lt_start_iff {j k : Nat} {a b : Item} (foundA : d.items[j]? = some a) (foundB : d.items[k]? = some b)
    (visibleA : a.kind.isGap = false) (visibleB : b.kind.isGap = false) : a.start < b.start ↔ j < k := by
  have ordered {j k : Nat} {a b : Item} (foundA : d.items[j]? = some a) (foundB : d.items[k]? = some b)
      (visibleA : a.kind.isGap = false) (visibleB : b.kind.isGap = false) (less : j < k) : a.start < b.start := by
    obtain ⟨boundA, rfl⟩ := List.getElem?_eq_some_iff.mp foundA
    obtain ⟨boundB, rfl⟩ := List.getElem?_eq_some_iff.mp foundB
    exact List.pairwise_iff_getElem.mp d.pairwise_beginsBefore j k boundA boundB less visibleA visibleB
  rcases Nat.lt_trichotomy j k with less | rfl | more
  · exact ⟨fun _ => less, fun _ => ordered foundA foundB visibleA visibleB less⟩
  · obtain rfl := Option.some.inj (foundA.symm.trans foundB)
    simp
  · have := ordered foundB foundA visibleB visibleA more
    omega

/-- The context of the place where a node begins is its container. -/
theorem context_start (d : Document) {i : Nat} {n : Node} (positive : 0 < i)
    (found : d.outline.nodes[i]? = some n) (visible : n.isGap = false) :
    ∃ column, n.column? = some column ∧ n.parent = some (d.outline.context n.start column) := by
  obtain ⟨k, item, rfl, at', rfl⟩ := Outline.exists_item_of_pos positive found
  obtain ⟨column, stands⟩ := Kind.column?_of_isGap (d.rootless_items item (List.mem_of_getElem? at')) visible
  refine ⟨column, stands, ?_⟩
  have places (j : Nat) (x : Node) (other : (Outline.ofItems d.items).nodes[j]? = some x) (positive : 0 < j)
      (visible' : x.isGap = false) : x.start < item.start ↔ j ≤ k := by
    obtain ⟨m, item', rfl, at'', rfl⟩ := Outline.exists_item_of_pos positive other
    exact start_lt_start_iff at'' at' visible' visible
  rw [outline_eq, Outline.context_eq d.rootless_items places, enclosingOf, stands]

theorem le_start_of_content {column : Nat} {t : Text} (content : l.content = spaces column ++ t) {item : Item}
    (onLine : item ∈ l.items) (visible : item.kind.isGap = false) : l.start + column ≤ item.start := by
  obtain ⟨c, placed⟩ := Line.placed_of_isGap onLine visible
  obtain ⟨x, written⟩ := Line.written_of_mem_items onLine placed.stands
  obtain ⟨c', right, stands⟩ := Line.column?_of_mem_items written onLine
  obtain rfl := Option.some.inj (stands.symm.trans placed.stands)
  rw [content, indentation_spaces] at written
  obtain ⟨inner, -, rfl⟩ := Option.map_eq_some_iff.mp written
  have := placed.start
  omega

theorem context_eq_of_items {early late : List Item} (items : d.items = early ++ late) {offset : Nat}
    (before : ∀ item ∈ early, item.kind.isGap = false → item.start < offset)
    (behind : ∀ item ∈ late, item.kind.isGap = false → offset ≤ item.start) (column : Nat) :
    d.outline.context offset column = enclosing (closeTo column (openedAfter [] 1 early)) := by
  have upTo : d.items.take early.length = early := by rw [items, List.take_left]
  rw [outline_eq, Outline.context_eq d.rootless_items (k := early.length), upTo]
  intro j x found positive visible
  obtain ⟨k, item, rfl, at', rfl⟩ := Outline.exists_item_of_pos positive found
  show item.start < offset ↔ k < early.length
  rw [items] at at'
  by_cases less : k < early.length
  · rw [List.getElem?_append_left less] at at'
    simp only [less, iff_true]
    exact before item (List.mem_of_getElem? at') visible
  · rw [List.getElem?_append_right (Nat.le_of_not_lt less)] at at'
    simp only [less, iff_false, Nat.not_lt]
    exact behind item (List.mem_of_getElem? at') visible

theorem context_eq_of_content (split : d.lines = upper ++ l :: lower) {column : Nat} {t : Text}
    (content : l.content = spaces column ++ t) :
    d.outline.context (l.start + column) column =
      enclosing (closeTo column (openedAfter [] 1 (upper.flatMap Line.items))) := by
  obtain ⟨above, below⟩ := apart_of_split split
  have items : d.items = upper.flatMap Line.items ++ (l.items ++ lower.flatMap Line.items) := by
    simp [Document.items, split]
  refine context_eq_of_items items (fun item member _ => ?_) (fun item member visible => ?_) column
  · obtain ⟨x, onLines, onLine⟩ := List.mem_flatMap.mp member
    have := above x onLines
    have := Line.bounds_of_mem_items onLine
    omega
  · rcases List.mem_append.mp member with onLine | later
    · exact le_start_of_content content onLine visible
    · obtain ⟨x, onLines, onLine⟩ := List.mem_flatMap.mp later
      have := below x onLines
      have := Line.bounds_of_mem_items onLine
      have inside : l.start + column ≤ l.stop := by simp [Line.stop, Line.length, content]
      omega

theorem lineOf_of_content (split : d.lines = upper ++ l :: lower) {lead t : Text} (content : l.content = lead ++ t) :
    d.lineOf (l.start + bytes lead) = .ok upper.length := by
  obtain ⟨above, tail, cut⟩ := exists_cut split
  have oneLine : '\n' ∉ lead := fun member => cut.oneLine (by rw [content]; exact List.mem_append_left _ member)
  exact lineOf_eq cut (boundary_of_cuts cut ⟨lead, content, rfl⟩).1 (before_of_content cut content) oneLine

theorem lineAround_eq (split : d.lines = upper ++ l :: lower) {lead t : Text} (content : l.content = lead ++ t) :
    d.lineAround (l.start + bytes lead) = .ok l := by
  have number := lineOf_of_content split content
  have found : d.lines[upper.length]? = some l := by rw [split]; simp
  simp [lineAround, number, line, found, bind, Except.bind]

theorem exists_of_lineBefore {column place : Nat} (lead : d.lineBefore place = .ok (spaces column)) :
    ∃ upper l lower above tail t, d.lines = upper ++ l :: lower ∧ Line.Cut 0 d.text upper l lower above tail ∧
      l.content = spaces column ++ t ∧ place = l.start + column ∧ before d.text place = above ++ spaces column := by
  obtain ⟨upper, l, lower, above, tail, lead', split, cut, before', oneLine, inside⟩ := exists_cut_at d place
  have boundary : Boundary d.text place := by
    by_contra outside
    simp [lineBefore, checkOffset, outside, bind, Except.bind] at lead
  obtain rfl : lead' = spaces column := Except.ok.inj ((lineBefore_eq cut boundary before' oneLine).symm.trans lead)
  obtain ⟨t, content, -⟩ := inside (by simp [spaces])
  have place : place = l.start + column := by
    have bytes := boundary.symm
    rw [before', bytes_append, bytes_spaces] at bytes
    rw [bytes, cut.begins, Nat.zero_add]
  exact ⟨upper, l, lower, above, tail, t, split, cut, content, place, before'⟩

end Document

structure Outline.FirstOn (o : Outline) (l : Line) (i : Nat) (n : Node) : Prop where
  positive : 0 < i
  found : o.nodes[i]? = some n
  begins : l.start ≤ n.start ∧ n.start ≤ l.stop
  first : ∀ j x, 0 < j → o.nodes[j]? = some x → l.start ≤ x.start → x.start ≤ l.stop → i ≤ j

namespace Document

/-- The document in which a line goes on differently from a place on. -/
def rewriteLine (d : Document) (place : Nat) (l : Line) (content : Text) : Document :=
  ⟨before d.text place ++ content ++ after d.text l.stop⟩

variable {d : Document} {upper lower : List Line} {l : Line} {above : Text} {tail : Line.Tail}

/-- Only the line itself is read anew, and what lies below it. -/
theorem exists_lines_rewriteLine (cut : Line.Cut 0 d.text upper l lower above tail) {column place : Nat}
    (before' : before d.text place = above ++ spaces column) {content : Text} (oneLine : '\n' ∉ content)
    (written : isBlank content = false) (space : content.head? ≠ some ' ') (comment : content.head? ≠ some '#') :
    ∃ l' lower', (d.rewriteLine place l content).lines = upper ++ l' :: lower' ∧ l'.start = l.start ∧
      Text.indentation l'.content = some column := by
  have noBreak : '\n' ∉ spaces column ++ content := by simpa [spaces] using oneLine
  have indented : Text.indentation (spaces column ++ content) = some column :=
    indentation_spaces_append written space comment
  obtain ⟨content', eq, -, ending, lines⟩ := Line.read_tail (0 + bytes above) tail noBreak
  refine ⟨⟨0 + bytes above, content', ending⟩, tail.lines (0 + bytes above + bytes (spaces column ++ content)), ?_,
    cut.begins.symm, ?_⟩
  · rw [lines_eq, rewriteLine, before', after_stop cut, ← lines, ← cut.whole.reads]
    simp
  · rcases eq with rfl | eq
    · exact indented
    · rwa [eq, indentation_return] at indented

theorem exists_firstOn (split : d.lines = upper ++ l :: lower) {column : Nat}
    (indented : Text.indentation l.content = some column) :
    ∃ i n, d.outline.FirstOn l i n ∧
      n.parent = some (enclosing (closeTo column (openedAfter [] 1 (upper.flatMap Line.items)))) := by
  have opens := Line.opens_items indented
  obtain ⟨item, rest, eq⟩ := List.exists_cons_of_ne_nil l.items_ne_nil
  have stands : item.kind.column? = some column := by simpa [eq] using opens.first
  have onLine : item ∈ l.items := by rw [eq]; exact List.mem_cons_self
  have items : d.items = upper.flatMap Line.items ++ item :: (rest ++ lower.flatMap Line.items) := by
    simp [Document.items, split, eq]
  have upTo : d.items.take (upper.flatMap Line.items).length = upper.flatMap Line.items := by
    rw [items, List.take_left]
  have found := Outline.getElem?_ofItems_succ d.items (upper.flatMap Line.items).length
  rw [upTo, items, List.getElem?_append_right (Nat.le_refl _), Nat.sub_self, List.getElem?_cons_zero, Option.map_some,
    enclosingOf, stands, ← items] at found
  have bounds := Line.bounds_of_mem_items onLine
  refine ⟨_, _, ⟨Nat.succ_pos _, found, ⟨bounds.1, bounds.2.1⟩, ?_⟩, rfl⟩
  intro j x positive other begins ends
  obtain ⟨k, item', rfl, at', rfl⟩ := Outline.exists_item_of_pos positive other
  have := mem_items_of_start split at' begins ends
  omega

/-- The context is the container: of every node that is no gap, at the place and the column where it begins; and behind
the spaces that begin a line, of whatever the line would open there if it went on differently. -/
theorem context_parent (d : Document) :
    (∀ i n, 0 < i → d.outline.nodes[i]? = some n → n.isGap = false →
      ∃ column, n.column? = some column ∧ n.parent = some (d.outline.context n.start column)) ∧
    ∀ place column l content, d.lineBefore place = .ok (spaces column) → d.lineAround place = .ok l →
      '\n' ∉ content → isBlank content = false → content.head? ≠ some ' ' → content.head? ≠ some '#' →
      ∃ l' i n, (d.rewriteLine place l content).lineAround place = .ok l' ∧
        (d.rewriteLine place l content).outline.FirstOn l' i n ∧
        n.parent = some (d.outline.context place column) := by
  constructor
  · intro i n positive found visible
    exact d.context_start positive found visible
  · intro place column l content lead around oneLine written space comment
    obtain ⟨upper, l₀, lower, above, tail, t, split, cut, eq, rfl, before'⟩ := exists_of_lineBefore lead
    have around' := lineAround_eq split eq
    rw [bytes_spaces] at around'
    obtain rfl : l₀ = l := Except.ok.inj (around'.symm.trans around)
    obtain ⟨l', lower', split', start, indented⟩ :=
      exists_lines_rewriteLine cut before' oneLine written space comment
    obtain ⟨c, rest, eq', -⟩ := exists_of_indentation indented
    have here := lineAround_eq split' eq'
    rw [bytes_spaces, start] at here
    obtain ⟨i, n, first, parent⟩ := exists_firstOn split' indented
    exact ⟨l', i, n, here, first, by rw [parent, context_eq_of_content split eq]⟩

/-- An entry that is nested on its line, and a line below it that is closed off by what stands in between. -/
theorem context_parent_ragged :
    let d : Document := ⟨"a:\n    - - b: 1\n  x\n  y\n".toList⟩
    let l : Line := ⟨20, "  y".toList, some .lf⟩
    (∃ n column, d.outline.nodes[4]? = some n ∧ n.parent = some 3 ∧ d.outline.context n.start column = 3) ∧
      ∃ l' i n, (d.rewriteLine 22 l "- z".toList).outline.FirstOn l' i n ∧ n.parent = some 1 := by
  intro d l
  obtain ⟨nodes, places⟩ := context_parent d
  constructor
  · obtain ⟨column, -, parent⟩ := nodes 4 ⟨⟨.key 8 "b".toList 12, 11, 15⟩, some 3⟩ (by decide) (by decide) (by decide)
    exact ⟨_, column, by decide, rfl, (Option.some.inj parent).symm⟩
  · obtain ⟨l', i, n, -, first, parent⟩ := places 22 2 l "- z".toList (by decide) (by decide) (by decide) (by decide)
      (by decide) (by decide)
    have context : d.outline.context 22 2 = 1 := by decide +kernel
    exact ⟨l', i, n, first, by rw [parent, context]⟩

end Document
end Offside
