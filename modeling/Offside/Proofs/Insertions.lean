import Offside.Completion.Change
import Offside.Proofs.Clearings

/-! A key path put in the place of a word that is typed alone on its line: either the keys that exist are used and the
missing ones grow behind them, or the whole path comes to stand on the line. Below the context of the word the path
resolves in both cases. -/
namespace Offside

open Text Character

theorem valuePart_append {value : Text} (nonempty : value ≠ []) {rest : Text} (oneLine : '\n' ∉ rest) (column : Nat) :
    valuePart column value ++ rest = valuePart column (value ++ rest) := by
  have first : (value ++ rest).head? = value.head? := by
    obtain ⟨c, more, rfl⟩ := List.exists_cons_of_ne_nil nonempty
    rfl
  rw [valuePart, valuePart, first, shiftLines_append, shiftLines_of_notMem oneLine, List.append_assoc]

theorem grownText_append (br : LineBreak) (column : Nat) (fresh : Bool) (path : KeyPath) {value : Text}
    (nonempty : value ≠ []) {rest : Text} (oneLine : '\n' ∉ rest) :
    grownText br column fresh path value ++ rest = grownText br column fresh path (value ++ rest) := by
  rw [grownText, grownText, List.append_assoc, valuePart_append nonempty oneLine]

theorem Text.IsValue.append {value : Text} (valid : value.IsValue) (nonempty : value ≠ []) (rest : Text) :
    Text.IsValue (value ++ rest) := by
  obtain ⟨c, more, rfl⟩ := List.exists_cons_of_ne_nil nonempty
  exact valid

namespace Document

/-- Below a node that is still in its place, as everything before it, the path resolves. -/
structure Resolves (d d' : Document) (node : Nat) (path : KeyPath) : Prop where
  kept : ∀ i, i ≤ node → d'.outline.nodes[i]? = d.outline.nodes[i]?
  resolves : (d'.outline.follow node path).2 = []

namespace TypedOn

variable {d : Document} {span : Span} {column : Nat} {upper lower : List Line} {q : Line}
  {above word rest : Text} {tail : Line.Tail}

theorem text (typed : d.TypedOn span column upper q lower above tail word rest) :
    d.text = above ++ spaces column ++ word ++ (rest ++ tail.text) := by
  rw [typed.cut.text, typed.content]
  simp

theorem notMem_newline (typed : d.TypedOn span column upper q lower above tail word rest) :
    '\n' ∉ spaces column ++ word ++ rest := by
  rw [← typed.content]
  exact typed.cut.oneLine

theorem not_covers (typed : d.TypedOn span column upper q lower above tail word rest) {item : Item}
    (member : item ∈ d.items) (container : item.kind.isContainer = true) :
    ¬(item.start ≤ span.start ∧ span.start ≤ item.stop) := by
  obtain ⟨before, behind⟩ := apart_of_split typed.split
  obtain ⟨first, within⟩ := typed.begins
  obtain ⟨x, single, plain, -⟩ := typed.exists_item
  rw [typed.items_eq, single] at member
  rintro ⟨start, stop⟩
  rcases List.mem_append.mp member with earlier | later
  · obtain ⟨l, onLines, onLine⟩ := List.mem_flatMap.mp earlier
    have := before l onLines
    have := Line.bounds_of_mem_items onLine
    omega
  · rcases List.mem_cons.mp later with rfl | later
    · exact absurd (container.symm.trans plain) Bool.noConfusion
    · obtain ⟨l, onLines, onLine⟩ := List.mem_flatMap.mp later
      have := behind l onLines
      have := Line.bounds_of_mem_items onLine
      omega

theorem lines_cleared (typed : d.TypedOn span column upper q lower above tail word rest) (noReturns : d.NoReturns) :
    ∃ ending lower', lower = lower'.map (Line.shift (bytes word)) ∧
      (Document.mk (above ++ spaces column ++ (rest ++ tail.text))).lines =
        upper ++ ⟨0 + bytes above, spaces column ++ rest, ending⟩ :: lower' := by
  have oneLine : '\n' ∉ spaces column ++ rest := by
    have := typed.notMem_newline
    simp only [List.mem_append, not_or] at this ⊢
    exact ⟨this.1.1, this.2⟩
  have last : (spaces column ++ rest).getLast? ≠ some '\r' := by
    have returns := noReturns q (by rw [typed.split]; simp)
    rw [typed.content] at returns
    rcases List.eq_nil_or_concat' rest with rfl | ⟨early, c, rfl⟩
    · intro eq
      have := List.mem_of_getLast? eq
      simp [spaces] at this
    · simpa [← List.append_assoc] using returns
  obtain ⟨content, -, same, ending, first⟩ := Line.read_tail (0 + bytes above) tail oneLine
  obtain rfl := same last
  refine ⟨ending, tail.lines (0 + bytes above + bytes (spaces column ++ rest)), ?_, ?_⟩
  · rw [← Line.Tail.lines_add, typed.cut.lower, Line.stop, Line.length, typed.content, typed.cut.begins]
    simp only [bytes_append]
    congr 1
    omega
  · rw [lines_eq, ← first, ← typed.cut.whole.reads]
    simp

theorem exists_cleared (typed : d.TypedOn span column upper q lower above tail word rest) (noReturns : d.NoReturns) :
    ∃ q' lower', lower = lower'.map (Line.shift (bytes word)) ∧
      d.Cleared ⟨above ++ spaces column ++ (rest ++ tail.text)⟩ column (bytes word) upper q q' lower' ∧
      (∀ l ∈ upper, l.stop ≤ span.start) ∧ ∀ l ∈ lower', span.start ≤ l.stop := by
  obtain ⟨ending, lower', moved, new⟩ := typed.lines_cleared noReturns
  have blank : isBlank (spaces column ++ rest) = true := by
    rw [isBlank, List.all_append, Bool.and_eq_true]
    exact ⟨isBlank_spaces column, typed.blank⟩
  obtain ⟨before, -⟩ := apart_of_split typed.split
  obtain ⟨-, behind⟩ := apart_of_split new
  obtain ⟨start, -⟩ := typed.begins
  have begins := typed.cut.begins
  refine ⟨_, lower', moved, ⟨?_, new, ?_, ?_, ?_⟩, fun l member => ?_, fun l member => ?_⟩
  · rw [← moved]
    exact typed.split
  · obtain ⟨x, single, plain, place⟩ := typed.exists_item
    exact ⟨x, single, plain, place⟩
  · obtain ⟨c, -, single⟩ := Line.items_gap (l := ⟨0 + bytes above, spaces column ++ rest, ending⟩)
      (indentation_of_isBlank blank)
    exact ⟨_, single, rfl, rfl⟩
  · have below := typed.below
    rw [moved, Line.flatMap_items_shift] at below
    exact startsBy_shift.mp below
  · have := before l member
    omega
  · have behind := behind l member
    simp only [Line.stop, Line.length, bytes_append, bytes_spaces] at behind ⊢
    omega

theorem enters (typed : d.TypedOn span column upper q lower above tail word rest) (noReturns : d.NoReturns)
    {path : KeyPath} {base : Nat} {n : Node} {name : Text}
    (followed : d.outline.follow (d.outline.context span.start column) path = (base, []))
    (found : d.outline.nodes[base]? = some n) (named : n.kind.name? = some name) :
    ∃ draft d' selection,
      d.outline.enterValue d base (Draft.empty.delete span.start span.stop) = .ok draft ∧
      draft.apply d = .ok (d', some selection) ∧
      d.Resolves d' (d.outline.context span.start column) path := by
  obtain ⟨q', lower', -, cleared, -⟩ := typed.exists_cleared noReturns
  rcases enterValue_eq d base (Draft.empty.delete span.start span.stop) with ⟨caret, boundary, eq⟩ | ⟨-, colon, -⟩
  · obtain ⟨selection, applied⟩ := Draft.apply_delete typed.text typed.start typed.stop boundary
    refine ⟨_, _, selection, eq, applied, fun i early => ?_, ?_⟩
    · exact cleared.node_eq (Nat.le_trans early typed.context_le)
    · rw [← Outline.follow_of_sketches cleared.sketches, followed]
  · obtain ⟨x, place, kind⟩ := Kind.exists_key_of_name? named
    rw [Outline.kindOf_eq found, kind] at colon
    contradiction

theorem exists_written {i c : Nat} {n : Node} (found : d.outline.nodes[i]? = some n) (stands : n.column? = some c) :
    ∃ l ∈ d.lines, l.Written := by
  obtain ⟨l, member, onLine⟩ := List.mem_flatMap.mp (mem_items_of_node found (Kind.ne_root_of_column? stands))
  exact ⟨l, member, Line.written_of_mem_items onLine stands⟩

theorem grows (typed : d.TypedOn span column upper q lower above tail word rest) (noReturns : d.NoReturns)
    (spaced : d.outline.Spaced) {path keys : KeyPath} {key value : Text} {base : Nat} {n : Node} {name : Text}
    (followed : d.outline.follow (d.outline.context span.start column) path = (base, key :: keys))
    (deep : d.outline.context span.start column < base)
    (found : d.outline.nodes[base]? = some n) (named : n.kind.name? = some name)
    (plain : ∀ k ∈ key :: keys, k.IsPlainKey) (valid : value.IsValue) :
    ∃ draft d' selection,
      d.outline.growNew d base (key :: keys) value (Draft.empty.delete span.start span.stop) = .ok draft ∧
      draft.apply d = .ok (d', some selection) ∧
      d.Resolves d' (d.outline.context span.start column) path := by
  obtain ⟨q', lower', moved, cleared, earlier, later⟩ := typed.exists_cleared noReturns
  obtain ⟨c, stands, -⟩ := Node.exists_sketch_of_name? named
  have container : n.isContainer = true := Outline.Hosts.isContainer (.inr ⟨name, named⟩)
  obtain ⟨above₁, l, below₁, ends⟩ := exists_blockEnds found container (exists_written found stands)
  have grown := growNew_eq found container ends (key :: keys) value (Draft.empty.delete span.start span.stop)
  rw [typed.context_eq] at deep
  obtain ⟨above₂, l', below₂, ends', place⟩ := cleared.exists_blockEnds found container stands deep (stands ▸ ends)
  obtain ⟨n', found', named', stands', -⟩ := Outline.exists_key_of_sketches cleared.sketches found named
  obtain ⟨above', tail', cut⟩ := exists_cut ends'.split
  have boundary := boundary_stop cut
  have last : l'.content.getLast? ≠ some '\r' := by
    rcases place with ⟨rfl, inUpper⟩ | ⟨-, inLower⟩
    · exact noReturns l' (by rw [typed.split]; simp [inUpper])
    · exact noReturns (l'.shift (bytes word)) (by rw [typed.split, moved]; simp [List.mem_map_of_mem inLower])
  rw [Outline.childColumn_of_sketches cleared.sketches found named] at grown
  have applied (inserted : Text) : ∃ selection, ((Draft.empty.delete span.start span.stop).insert l.stop inserted).apply d =
      .ok (⟨before (above ++ spaces column ++ (rest ++ tail.text)) l'.stop ++ inserted ++
        after (above ++ spaces column ++ (rest ++ tail.text)) l'.stop⟩, some selection) := by
    rcases place with ⟨rfl, inUpper⟩ | ⟨rfl, inLower⟩
    · exact Draft.apply_insert_before typed.text typed.start typed.stop boundary
        (typed.start ▸ earlier l' inUpper) inserted
    · have stop : (l'.shift (bytes word)).stop = l'.stop + bytes word := by
        simp only [Line.stop, Line.length, Line.shift]
        omega
      rw [stop]
      exact Draft.apply_insert_behind typed.text typed.start typed.stop boundary
        (typed.start ▸ later l' inLower) inserted
  obtain ⟨selection, applied⟩ := applied (grownText d.lineBreak (Outline.childColumn _ base) true (key :: keys) value)
  have followed' := followed
  rw [Outline.follow_of_sketches cleared.sketches] at followed'
  have spaced' := Outline.Spaced.of_sketches cleared.sketches.symm spaced
  obtain ⟨-, -, -, -, -, -, resolves, kept, -⟩ := BlockEnds.resolves (stands'.trans stands ▸ ends') found'
    (.inr ⟨name, named'⟩) spaced' last plain valid d.lineBreak followed' rfl
  refine ⟨_, _, selection, grown, applied, fun i early => ?_, resolves⟩
  rw [kept i (by rw [typed.context_eq] at early; omega)]
  exact cleared.node_eq (Nat.le_trans early typed.context_le)

theorem growAt_eq (typed : d.TypedOn span column upper q lower above tail word rest) (i : Nat) (path : KeyPath)
    (value : Text) (draft : Draft) :
    d.outline.growAt d i path span.start value draft =
      .ok (draft.insert span.start (grownText d.lineBreak column false path value)) := by
  have split : before d.text span.start = above ++ spaces column := by
    rw [typed.text, List.append_assoc _ word, typed.start, before_bytes_append]
  have boundary : Boundary d.text span.start := by rw [Boundary, split, typed.start]
  have oneLine : '\n' ∉ spaces column := by simp [spaces]
  have lead := lineBefore_eq typed.cut boundary split oneLine
  have blank := isBlank_spaces column
  have length : (spaces column).length = column := List.length_replicate
  simp [Outline.growAt, lead, blank, length, bind, Except.bind, pure, Except.pure]

theorem exists_items (typed : d.TypedOn span column upper q lower above tail word rest) {key value : Text}
    {keys : KeyPath} (plain : ∀ k ∈ key :: keys, k.IsPlainKey) (valid : value.IsValue) (written : value ≠ [])
    (br : LineBreak) :
    ∃ run more below, KeyRun column (key :: keys) run ∧
      (Document.mk (above ++ spaces column ++ grownText br column false (key :: keys) value ++
        (rest ++ tail.text))).items = upper.flatMap Line.items ++ (run ++ more) ++ below := by
  have oneLine : '\n' ∉ rest := fun member => typed.notMem_newline (List.mem_append_right _ member)
  obtain ⟨lines, run, more, below, path⟩ := Line.read_path plain (valid.append written rest) (0 + bytes above)
    br column tail
  have text : above ++ spaces column ++ grownText br column false (key :: keys) value ++ (rest ++ tail.text) =
      above ++ (spaces column ++ grownText br column false (key :: keys) (value ++ rest) ++ tail.text) := by
    rw [← grownText_append br column false (key :: keys) written oneLine]
    simp
  generalize tail.lines _ = lower' at below
  refine ⟨run, more, lower'.flatMap Line.items, path.keys, ?_⟩
  rw [Document.items, lines_eq, text, typed.cut.whole.reads, below, List.flatMap_append, List.flatMap_append, path.items]
  simp only [List.append_assoc]

theorem growsInPlace (typed : d.TypedOn span column upper q lower above tail word rest) {key value : Text}
    {keys : KeyPath} (plain : ∀ k ∈ key :: keys, k.IsPlainKey) (valid : value.IsValue) (written : value ≠ [])
    (absent : d.outline.childNamed? (d.outline.context span.start column) key = none) :
    ∃ draft d' selection,
      d.outline.growAt d (d.outline.context span.start column) (key :: keys) span.start value
        (Draft.empty.delete span.start span.stop) = .ok draft ∧
      draft.apply d = .ok (d', some selection) ∧
      d.Resolves d' (d.outline.context span.start column) (key :: keys) := by
  obtain ⟨selection, applied⟩ := Draft.apply_insert_before typed.text typed.start typed.stop
    (typed.start ▸ boundary_left rfl) (Nat.le_of_eq typed.start) (grownText d.lineBreak column false (key :: keys) value)
  rw [typed.start, before_bytes_append, after_bytes_append, ← typed.start] at applied
  obtain ⟨run, more, below, run', items⟩ := typed.exists_items plain valid written d.lineBreak
  refine ⟨_, _, selection, typed.growAt_eq _ _ _ _, applied, fun i early => ?_, ?_⟩
  · have early := Nat.lt_succ_of_le (Nat.le_trans early typed.context_le)
    rw [outline_eq, outline_eq, items, typed.items_eq, List.append_assoc, Outline.getElem?_graft_of_lt early,
      Outline.getElem?_graft_of_lt early]
  · have le := typed.context_le
    have container := typed.context_eq.symm
    have followed : d.outline.follow (d.outline.context span.start column) (key :: keys) =
        (d.outline.context span.start column, key :: keys) := by rw [Outline.follow_cons, absent]
    generalize d.outline.context span.start column = context at le container followed ⊢
    rw [outline_eq, typed.items_eq] at followed
    rw [outline_eq, items, Outline.follow_graft run' (List.cons_ne_nil _ _) followed le container]

theorem growsFrom (typed : d.TypedOn span column upper q lower above tail word rest) (noReturns : d.NoReturns)
    (spaced : d.outline.Spaced) {key value : Text} {keys : KeyPath} (plain : ∀ k ∈ key :: keys, k.IsPlainKey)
    (valid : value.IsValue) {child : Nat}
    (present : d.outline.childNamed? (d.outline.context span.start column) key = some child) :
    ∃ draft d' selection,
      d.outline.grow d (d.outline.context span.start column) (key :: keys) value
        (Draft.empty.delete span.start span.stop) = .ok draft ∧
      draft.apply d = .ok (d', some selection) ∧
      d.Resolves d' (d.outline.context span.start column) (key :: keys) := by
  obtain ⟨⟨base, missing⟩, followed⟩ : ∃ r, d.outline.follow (d.outline.context span.start column) (key :: keys) = r :=
    ⟨_, rfl⟩
  obtain ⟨deep, m, name, found, named⟩ := Outline.exists_key_of_follow present followed
  have plainMissing : ∀ k ∈ missing, k.IsPlainKey := fun k member =>
    plain k ((Outline.follow_missing followed).1.mem member)
  rw [Outline.grow, followed]
  cases missing with
  | nil => exact typed.enters noReturns followed found named
  | cons first more => exact typed.grows noReturns spaced followed deep found named plainMissing valid

end TypedOn

end Document

namespace PathInsertion

variable {p : PathInsertion} {d : Document} {upper lower : List Line} {q : Line} {above word rest : Text}
  {tail : Line.Tail}

/-- A key that exists is reused, since none stands on the line of the word. -/
theorem reuses_eq (typed : d.TypedOn p.word p.column upper q lower above tail word rest) {key : Text} {keys : KeyPath}
    (path : p.path = key :: keys) :
    p.reuses d.outline (d.outline.context p.word.start p.column) =
      (d.outline.childNamed? (d.outline.context p.word.start p.column) key).isSome := by
  rw [reuses, path, List.head?_cons, Option.bind_some]
  cases present : d.outline.childNamed? (d.outline.context p.word.start p.column) key with
  | none => rfl
  | some child =>
    obtain ⟨⟨n, isChild⟩, -⟩ := Outline.childNamed?_eq_some_iff.mp present
    have container := Outline.Hosts.isContainer (.inr ⟨key, isChild.name⟩)
    obtain ⟨column, stands, -⟩ := Node.exists_sketch_of_name? isChild.name
    have apart := typed.not_covers (Document.mem_items_of_node isChild.found (Kind.ne_root_of_column? stands)) container
    simp [isChild.found]
    omega

/-- An insertion at a typed word is applied, and below the context of the word its path resolves. -/
theorem applies (typed : d.TypedOn p.word p.column upper q lower above tail word rest) (noReturns : d.NoReturns)
    (spaced : d.outline.Spaced) (plain : ∀ k ∈ p.path, k.IsPlainKey) (nonempty : p.path ≠ [])
    (valid : p.value.IsValue) (written : p.value ≠ []) :
    ∃ d' selection, (Change.path p).apply d = .ok (d', some selection) ∧
      d.Resolves d' (d.outline.context p.word.start p.column) p.path := by
  obtain ⟨key, keys, path⟩ := List.exists_cons_of_ne_nil nonempty
  have choice := reuses_eq typed path
  rw [path] at plain
  obtain ⟨draft, d', selection, drafted, applied, resolves⟩ : ∃ draft d' selection, p.draft d = .ok draft ∧
      draft.apply d = .ok (d', some selection) ∧
      d.Resolves d' (d.outline.context p.word.start p.column) (key :: keys) := by
    cases present : d.outline.childNamed? (d.outline.context p.word.start p.column) key with
    | none =>
      rw [present, Option.isSome_none] at choice
      simp only [draft, choice, path]
      exact typed.growsInPlace plain valid written present
    | some child =>
      rw [present, Option.isSome_some] at choice
      simp only [draft, choice, path]
      exact typed.growsFrom noReturns spaced plain valid present
  refine ⟨d', selection, ?_, path ▸ resolves⟩
  rw [Change.apply, drafted]
  exact applied

end PathInsertion
end Offside
