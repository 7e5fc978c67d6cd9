import Offside.Proofs.Arenas
import Offside.Proofs.BareDocuments
import Offside.Proofs.Enclosures

/-! The nodes of a document, in the order of the text. Every line opens a run of nodes that tell how it is indented, and every
key is found again by its colon. -/
namespace Offside

open Text

theorem Text.bytes_takeWhile_space (t : Text) : bytes (t.takeWhile (· == ' ')) = (t.takeWhile (· == ' ')).length := by
  have spaces : t.takeWhile (· == ' ') = spaces (t.takeWhile (· == ' ')).length :=
    List.eq_replicate_iff.mpr ⟨rfl, fun c member => by simpa using List.mem_takeWhile_imp member⟩
  conv_lhs => rw [spaces, bytes_spaces]

namespace Line

variable {l : Line} {item : Item}

theorem exists_cuts_of_mem_items (member : item ∈ l.items) : ∃ column t, item.start = l.start + column ∧ l.Cuts column t := by
  cases indented : indentation l.content with
  | none =>
    rw [items, indented, List.mem_singleton] at member
    subst member
    by_cases blank : isBlank l.content = true
    · rw [if_pos blank]
      exact ⟨0, l.content, rfl, [], rfl, rfl⟩
    · rw [if_neg blank]
      exact ⟨_, _, rfl, _, List.takeWhile_append_dropWhile.symm, bytes_takeWhile_space _⟩
  | some column =>
    obtain ⟨c, -, placed⟩ := (opens_items indented).placed item member
    obtain ⟨t, -, cuts⟩ := placed.cuts
    exact ⟨c, t, placed.start, cuts⟩

theorem column?_of_head {later : List Item} (eq : l.items = item :: later) : item.kind.column? = indentation l.content := by
  cases indented : indentation l.content with
  | none =>
    obtain ⟨column, -, single⟩ := items_gap indented
    obtain rfl := (List.cons_eq_cons.mp (eq.symm.trans single)).1
    rfl
  | some column => simpa [eq] using (opens_items indented).first

theorem isGap_iff_of_mem_items (member : item ∈ l.items) : item.kind.isGap = true ↔ item.kind.column? = none := by
  rcases mem_items_cases member with ⟨column, -, rfl⟩ | ⟨column, placed⟩
  · exact iff_of_true rfl rfl
  · simp [Kind.isGap_of_column? placed.stands, placed.stands]

theorem indentation_eq_none_iff (l : Line) : indentation l.content = none ↔ isBlank l.content = true ∨ l.IsComment := by
  rw [isComment_iff]
  cases blank : isBlank l.content with
  | true => simp [indentation_of_isBlank blank]
  | false => simp

theorem pairwise_start (l : Line) : l.items.Pairwise fun a b => a.start ≤ b.start := by
  cases indented : indentation l.content with
  | none =>
    obtain ⟨column, -, single⟩ := items_gap indented
    simp [single]
  | some column =>
    refine l.pairwise_beginsBefore.imp_of_mem fun memberA memberB before => ?_
    obtain ⟨a, -, placedA⟩ := (opens_items indented).placed _ memberA
    obtain ⟨b, -, placedB⟩ := (opens_items indented).placed _ memberB
    exact Nat.le_of_lt (before (Kind.isGap_of_column? placedA.stands) (Kind.isGap_of_column? placedB.stands))

/-- The nodes for the items of some lines come in runs, one for each line. -/
theorem exists_runs (opened : List Frame) (next : Nat) (lines : List Line) :
    ∃ runs : List (List Node), nest opened next (lines.flatMap items) = runs.flatten ∧
      runs.map (List.map Node.toItem) = lines.map items := by
  induction lines generalizing opened next with
  | nil => exact ⟨[], rfl, rfl⟩
  | cons l lines ih =>
    obtain ⟨runs, flat, each⟩ := ih (openedAfter opened next l.items) (next + l.items.length)
    refine ⟨nest opened next l.items :: runs, ?_, ?_⟩
    · rw [List.flatMap_cons, nest_append, flat, List.flatten_cons]
    · rw [List.map_cons, List.map_cons, map_toItem_nest, each]

end Line

namespace Document

variable {d : Document} {upper lower : List Line} {l : Line} {above : Text} {tail : Line.Tail} {i : Nat} {n : Node}

theorem map_toItem_outline (d : Document) : d.outline.nodes.map Node.toItem = ⟨.root, 0, 0⟩ :: d.items := by
  rw [outline, List.map_cons, map_toItem_nest]

theorem mem_items_of_covers (onLines : l ∈ d.lines) {place : Nat} (begins : l.start ≤ place) (ends : place ≤ l.stop)
    {item : Item} (member : item ∈ d.items) (starts : item.start ≤ place) (stops : place ≤ item.stop) : item ∈ l.items := by
  obtain ⟨x, onLines', onLine⟩ := List.mem_flatMap.mp member
  obtain ⟨start, -, stop⟩ := Line.bounds_of_mem_items onLine
  obtain ⟨upper, lower, split⟩ := List.append_of_mem onLines
  obtain ⟨above, below⟩ := apart_of_split split
  rw [split, List.mem_append, List.mem_cons] at onLines'
  rcases onLines' with earlier | rfl | later
  · have := above x earlier
    omega
  · exact onLine
  · have := below x later
    omega

theorem exists_node_of_mem_items (onLines : l ∈ d.lines) {item : Item} (onLine : item ∈ l.items) :
    ∃ (i : Nat) (n : Node), d.outline.nodes[i]? = some n ∧ n.toItem = item := by
  have inside : item ∈ d.outline.nodes.map Node.toItem := by
    rw [map_toItem_outline]
    exact List.mem_cons_of_mem _ (List.mem_flatMap.mpr ⟨l, onLines, onLine⟩)
  obtain ⟨n, member, same⟩ := List.mem_map.mp inside
  obtain ⟨i, found⟩ := List.mem_iff_getElem?.mp member
  exact ⟨i, n, found, same⟩

theorem pairwise_entry (d : Document) : d.items.Pairwise fun a b => (∃ column, a.kind = .entry column) ∨ a.stop < b.start := by
  rw [items, List.pairwise_flatMap]
  constructor
  · intro l _
    exact l.pairwise_entry.imp .inl
  · rw [lines_eq]
    apply (Line.read_pairwise 0 d.text).imp
    intro x y below a onX b onY
    have := Line.bounds_of_mem_items onX
    have := Line.bounds_of_mem_items onY
    exact .inr (by omega)

theorem pairwise_start (d : Document) : d.outline.nodes.Pairwise fun a b => a.start ≤ b.start := by
  have ordered : d.items.Pairwise fun a b => a.start ≤ b.start := by
    rw [items, List.pairwise_flatMap]
    constructor
    · intro l _
      exact l.pairwise_start
    · rw [lines_eq]
      apply (Line.read_pairwise 0 d.text).imp
      intro x y below a onX b onY
      have := Line.bounds_of_mem_items onX
      have := Line.bounds_of_mem_items onY
      omega
  have whole : (d.outline.nodes.map Node.toItem).Pairwise fun a b => a.start ≤ b.start := by
    rw [map_toItem_outline]
    exact List.pairwise_cons.mpr ⟨fun item _ => Nat.zero_le _, ordered⟩
  exact (List.pairwise_map (f := Node.toItem)).mp whole

theorem bounds_of_mem_nodes (member : n ∈ d.outline.nodes) :
    n.start ≤ n.stop ∧ n.stop ≤ d.length ∧ Boundary d.text n.start ∧ Boundary d.text n.stop := by
  have inside : n.toItem ∈ d.outline.nodes.map Node.toItem := List.mem_map_of_mem member
  rw [map_toItem_outline] at inside
  rcases List.mem_cons.mp inside with root | inside
  · rw [root]
    have zero : Boundary d.text 0 := by rw [Boundary, before_zero, bytes_nil]
    exact ⟨Nat.le_refl 0, Nat.zero_le _, zero, zero⟩
  · obtain ⟨upper, l, lower, above, tail, split, cut, onLine⟩ := exists_line_of_mem_items inside
    obtain ⟨-, start, stop⟩ := Line.bounds_of_mem_items onLine
    obtain ⟨column, t, place, cuts⟩ := Line.exists_cuts_of_mem_items onLine
    have within : l.stop ≤ 0 + d.length := (Line.read_bounds (by rw [← lines_eq, split]; simp)).2
    rw [stop, place]
    exact ⟨by omega, by omega, (boundary_of_cuts cut cuts).1, boundary_stop cut⟩

theorem slice_of_content (cut : Line.Cut 0 d.text upper l lower above tail) {a part t : Text}
    (content : l.content = a ++ part ++ t) : d.slice (l.start + bytes a) (l.start + bytes a + bytes part) = part := by
  have start : l.start + bytes a = bytes (above ++ a) := by rw [cut.begins, bytes_append, Nat.zero_add]
  rw [slice, Nat.add_assoc, ← bytes_append, before_of_content cut content, start, ← List.append_assoc, after_bytes_append]

/-- A key named after the text between its start and its colon. -/
structure KeyAt (d : Document) (n : Node) (name : Text) (colon : Nat) : Prop where
  char : d.charAt? colon = some ':'
  starts : n.start < colon
  stops : colon < n.stop
  named : name = trimEnd (d.slice n.start colon)
  written : isBlank name = false

theorem keyAt_of_kind (found : d.outline.nodes[i]? = some n) {column colon : Nat} {name : Text}
    (key : n.kind = .key column name colon) : d.KeyAt n name colon := by
  have at' : n.kind.colon? = some colon := by rw [key]; rfl
  have member := mem_items_of_node found (by rw [key]; nofun)
  obtain ⟨upper, l, lower, above, tail, -, cut, onLine⟩ := exists_line_of_mem_items member
  obtain ⟨a, part, t, content, -, written, named, start, place⟩ := Line.exists_key onLine key
  have nonempty : part ≠ [] := by
    rintro rfl
    contradiction
  have := length_le_bytes part
  have := List.length_pos_iff.mpr nonempty
  have slice := slice_of_content cut content
  rw [← start] at place slice
  rw [← place] at slice
  exact {
    char := (places_of_mem_items member (by rw [key]; rfl)).2 colon at'
    starts := by omega
    stops := (Line.bounds_of_mem_items onLine).2.2 ▸ (Line.colon_bounds onLine at').2
    named := by rw [slice, named]
    written := by rw [named, isBlank_trimEnd, written] }

theorem stop_lt_start_of_key (found : d.outline.nodes[i]? = some n) {column colon : Nat} {name : Text}
    (key : n.kind = .key column name colon) {j : Nat} {x : Node} (later : i < j) (behind : d.outline.nodes[j]? = some x) :
    n.stop < x.start := by
  have stands : n.column? = some column := by rw [Node.column?, key]; rfl
  obtain ⟨boundI, hereI⟩ := List.getElem?_eq_some_iff.mp
    (Outline.getElem?_pred_of_pos found (Outline.pos_of_column? found stands))
  obtain ⟨boundJ, hereJ⟩ := List.getElem?_eq_some_iff.mp
    (Outline.getElem?_pred_of_pos behind (Nat.lt_of_le_of_lt (Nat.zero_le i) later))
  have positive := Outline.pos_of_column? found stands
  have apart := List.pairwise_iff_getElem.mp d.pairwise_entry (i - 1) (j - 1) boundI boundJ (by omega)
  rw [hereI, hereJ] at apart
  refine apart.resolve_left ?_
  rintro ⟨column, entry⟩
  rw [key] at entry
  contradiction

theorem keyAtColon?_eq_some (found : d.outline.nodes[i]? = some n) {column colon : Nat} {name : Text}
    (key : n.kind = .key column name colon) : d.outline.keyAtColon? colon = some i := by
  obtain ⟨bound, here⟩ := List.getElem?_eq_some_iff.mp found
  refine List.findIdx?_eq_some_iff_getElem.mpr ⟨bound, by simp [here, key, Kind.colon?], fun j less => ?_⟩
  have other : d.outline.nodes[j]? = some _ := List.getElem?_eq_getElem (Nat.lt_trans less bound)
  rw [beq_iff_eq]
  intro same
  obtain ⟨column', name', key'⟩ := Kind.exists_key_of_colon? same
  have := (keyAt_of_kind found key).starts
  have := (keyAt_of_kind other key').stops
  have := stop_lt_start_of_key other key' less found
  omega

/-- The nodes of line `k`. They stand on it, and the first of them is a gap or tells how far the line is indented. -/
structure RunOn (d : Document) (k : Nat) (l : Line) (n : Node) (later : List Node) : Prop where
  line : d.line k = .ok l
  placed : ∀ x ∈ n :: later, l.start ≤ x.start ∧ x.start ≤ l.stop ∧ x.stop = l.stop
  indented : d.indentation k = .ok n.column?
  isGap : n.isGap = true ↔ d.indentation k = .ok none
  unwritten : n.isGap = true ↔ isBlank l.content = true ∨ l.IsComment
  spaced : ∀ column, n.column? = some column → ∃ c t, l.content = spaces column ++ c :: t ∧ c ≠ ' '

theorem runOn_of_items {k : Nat} (found : d.lines[k]? = some l) {later : List Node}
    (run : (n :: later).map Node.toItem = l.items) : d.RunOn k l n later := by
  have line : d.line k = .ok l := by rw [line, found]
  have read : d.indentation k = .ok n.column? := by
    rw [indentation, line, Node.column?, Line.column?_of_head run.symm]
    rfl
  have member {x : Node} (inside : x ∈ n :: later) : x.toItem ∈ l.items := by
    rw [← run]
    exact List.mem_map_of_mem inside
  have gap : n.isGap = true ↔ n.column? = none := Line.isGap_iff_of_mem_items (member List.mem_cons_self)
  exact {
    line
    placed := fun x inside => Line.bounds_of_mem_items (member inside)
    indented := read
    isGap := by rw [gap, read, Except.ok.injEq]
    unwritten := by rw [gap, Node.column?, Line.column?_of_head run.symm, Line.indentation_eq_none_iff]
    spaced := fun column stands => exists_of_indentation ((Line.column?_of_head run.symm).symm.trans stands) }

theorem exists_runs (d : Document) : ∃ runs : List (List Node),
    d.outline.nodes = ⟨⟨.root, 0, 0⟩, none⟩ :: runs.flatten ∧ runs.length = d.lines.length ∧
      ∀ k run, runs[k]? = some run → ∃ l n later, run = n :: later ∧ d.RunOn k l n later := by
  obtain ⟨runs, flat, each⟩ := Line.exists_runs [] 1 d.lines
  have size := congrArg List.length each
  rw [List.length_map, List.length_map] at size
  refine ⟨runs, congrArg (List.cons _) flat, size, fun k run at' => ?_⟩
  have items := congrArg (·[k]?) each
  simp only [List.getElem?_map, at', Option.map_some] at items
  obtain ⟨l, found, eq⟩ := Option.map_eq_some_iff.mp items.symm
  cases run with
  | nil => exact absurd eq l.items_ne_nil
  | cons n later => exact ⟨l, n, later, rfl, runOn_of_items found eq.symm⟩

/-- The arena that is built line by line holds the nodes as a tree in the order of the text. They begin further and further down
the text, and at its boundaries. Each line opens a run of them that tells the line's indentation. A key is named after the text
before its colon, and found by the colon. -/
theorem outline_ordered (d : Document) :
    d.arena.outline = d.outline ∧ d.arena.Arranged ∧
    (d.outline.nodes.Pairwise fun a b => a.start ≤ b.start) ∧
    (∀ n ∈ d.outline.nodes, n.start ≤ n.stop ∧ n.stop ≤ d.length ∧ Boundary d.text n.start ∧ Boundary d.text n.stop) ∧
    (∃ runs : List (List Node), d.outline.nodes = ⟨⟨.root, 0, 0⟩, none⟩ :: runs.flatten ∧ runs.length = d.lines.length ∧
      ∀ k run, runs[k]? = some run → ∃ l n later, run = n :: later ∧ d.RunOn k l n later) ∧
    ∀ (i : Nat) (n : Node) (column : Nat) (name : Text) (colon : Nat), d.outline.nodes[i]? = some n →
      n.kind = .key column name colon → d.KeyAt n name colon ∧ d.outline.keyAtColon? colon = some i := by
  refine ⟨d.outline_arena, d.arranged_arena, d.pairwise_start, fun n => bounds_of_mem_nodes, d.exists_runs, ?_⟩
  intro i n column name colon found key
  exact ⟨keyAt_of_kind found key, keyAtColon?_eq_some found key⟩

/-- The colon in the quotes is no key's, and the blanks before the other one do not belong to the name. The entry lists the key. -/
theorem outline_ordered_quoted :
    let d : Document := ⟨"- \"a: b\"  : 1\n".toList⟩
    ∃ n, d.outline.nodes[2]? = some n ∧ d.KeyAt n "\"a: b\"".toList 10 ∧ d.outline.keyAtColon? 10 = some 2 ∧
      (d.arena.children 1).count 2 = 1 ∧ (d.arena.children 0).count 2 = 0 := by
  intro d
  obtain ⟨stored, arranged, -, -, -, keys⟩ := outline_ordered d
  have found : d.outline.nodes[2]? = some ⟨⟨.key 2 "\"a: b\"".toList 10, 2, 13⟩, some 1⟩ := by decide
  obtain ⟨named, colon⟩ := keys 2 _ 2 _ 10 found rfl
  obtain ⟨-, p, -, parent, -, -, -, -, listed⟩ := arranged.nested 2 _ Nat.two_pos (stored ▸ found)
  obtain rfl : 1 = p := Option.some.inj parent
  exact ⟨_, found, named, colon, listed 1, listed 0⟩

end Document
end Offside
