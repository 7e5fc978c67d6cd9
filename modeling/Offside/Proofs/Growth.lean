import Offside.Proofs.Drafts
import Offside.Proofs.GrownText
import Offside.Proofs.Spacing

/-! Growth of a document: a path that is missing comes to stand behind the block of the node where it ends, and every
other node stays what it is. -/
namespace Offside

open Text

theorem StartsOutside.startsBy {column : Option Nat} {items : List Item} (h : StartsOutside column items) :
    StartsBy (column.getD 0) items := by
  cases column with
  | none => exact (List.append_nil items) ▸ StartsBy.append (b := []) h trivial
  | some c => exact h

namespace Document

/-- No line's content ends with a carriage return. -/
def NoReturns (d : Document) : Prop := ∀ l ∈ d.lines, l.content.getLast? ≠ some '\r'

instance (d : Document) : Decidable d.NoReturns := inferInstanceAs (Decidable (∀ l ∈ d.lines, _))

variable {d : Document} {i : Nat} {n : Node} {upper lower : List Line} {l : Line} {above : Text} {tail : Line.Tail}
  {key : Text} {keys : KeyPath} {value : Text}

theorem growNew_eq (found : d.outline.nodes[i]? = some n) (container : n.isContainer = true)
    (ends : d.BlockEnds i n.column? upper l lower) (path : KeyPath) (value : Text) (draft : Draft) :
    d.outline.growNew d i path value draft =
      .ok (draft.insert l.stop (grownText d.lineBreak (d.outline.childColumn i) true path value)) := by
  obtain ⟨above, tail, cut⟩ := exists_cut ends.split
  obtain ⟨column, written⟩ := ends.written
  have blank := isBlank_of_indentation written
  simp [Outline.growNew, growthOffset_eq found container ends, lineBefore_stop cut, blank, bind, Except.bind, pure,
    Except.pure]

/-- The lines of a document into which the text of a path was put behind a line. A carriage return at the end of that
line may go over to its ending. -/
theorem lines_grown (cut : Line.Cut 0 d.text upper l lower above tail) (plain : ∀ k ∈ key :: keys, k.IsPlainKey)
    (valid : value.IsValue) (br : LineBreak) (column : Nat) {d' : Document}
    (text : d'.text = before d.text l.stop ++ grownText br column true (key :: keys) value ++ after d.text l.stop) :
    ∃ content ending lines run rest,
      d'.lines = upper ++ ⟨l.start, content, ending⟩ ::
        (lines ++ lower.map (Line.shift (bytes (grownText br column true (key :: keys) value)))) ∧
      (l.content = content ∨ l.content = content ++ ['\r']) ∧
      (l.content.getLast? ≠ some '\r' → content = l.content) ∧
      Line.PathLines column (key :: keys) value lines run rest := by
  obtain ⟨lines, run, rest, below, path⟩ := Line.read_path plain valid (l.stop + bytes br.text) br column tail
  obtain ⟨content, join, same, ending, first⟩ := Line.read_tail l.start
    (some (br, spaces column ++ grownText br column false (key :: keys) value ++ tail.text)) cut.oneLine
  refine ⟨content, ending, lines, run, rest, ?_, join, same, path⟩
  have whole : d'.text = above ++ (l.content ++ Line.Tail.text
      (some (br, spaces column ++ grownText br column false (key :: keys) value ++ tail.text))) := by
    rw [text, before_stop cut, after_stop cut, grownText_fresh]
    simp [Line.Tail.text]
  have length : bytes (grownText br column true (key :: keys) value) =
      bytes br.text + bytes (spaces column ++ grownText br column false (key :: keys) value) := by
    rw [grownText_fresh, bytes_append]
  rw [lines_eq, whole, cut.whole.reads, ← cut.begins, first, Line.Tail.lines, ← Line.length, ← Line.stop, below,
    cut.lower, ← Line.Tail.lines_add, length, Nat.add_assoc]

theorem items_grown {d' : Document} {ending : Option LineBreak} {lines : List Line} {run rest : List Item} {k : Nat}
    {column : Nat} {path : KeyPath}
    (eq : d'.lines = upper ++ ⟨l.start, l.content, ending⟩ :: (lines ++ lower.map (Line.shift k)))
    (grown : Line.PathLines column path value lines run rest) :
    d'.items = (upper ++ [l]).flatMap Line.items ++ (run ++ rest) ++ (lower.flatMap Line.items).map (Item.shift k) := by
  have same : (Line.mk l.start l.content ending).items = l.items := by
    rw [Line.items_at, Line.items_at l.start l.content l.ending]
  rw [Document.items, eq, List.flatMap_append, List.flatMap_cons, List.flatMap_append, Line.flatMap_items_shift, grown.items, same]
  simp

theorem BlockEnds.container (ends : d.BlockEnds i n.column? upper l lower) (found : d.outline.nodes[i]? = some n)
    (hosts : Outline.Hosts n) (spaced : d.outline.Spaced) :
    enclosing (closeTo (d.outline.childColumn i) (openedAfter [] 1 ((upper ++ [l]).flatMap Line.items))) = i := by
  have items := items_of_split ends.split
  have upTo : d.items.take ((upper ++ [l]).flatMap Line.items).length = (upper ++ [l]).flatMap Line.items := by
    rw [items, List.take_left]
  rw [outline_eq] at found spaced ⊢
  rw [← upTo]
  refine Outline.enclosing_childColumn d.rootless_items spaced found hosts ends.inside fun c stands => ?_
  rw [upTo]
  exact ends.right c stands

theorem column_le_childColumn (found : d.outline.nodes[i]? = some n) :
    n.column?.getD 0 ≤ d.outline.childColumn i := by
  have stands : n.column? = (d.outline.kindOf i).column? := by rw [Outline.kindOf_eq found]; rfl
  rw [Outline.childColumn, stands]
  split
  next root => rw [root]; exact Nat.le_refl 0
  next => exact Nat.le_add_right _ _

theorem BlockEnds.keeps {lines : List Line} {run rest : List Item} {path : KeyPath}
    (ends : d.BlockEnds i n.column? upper l lower) (found : d.outline.nodes[i]? = some n)
    (grown : Line.PathLines (d.outline.childColumn i) path value lines run rest) (k : Nat) :
    d.outline.Keeps (.ofItems ((upper ++ [l]).flatMap Line.items ++ (run ++ rest) ++
        (lower.flatMap Line.items).map (Item.shift k)))
      l.stop k (((upper ++ [l]).flatMap Line.items).length + 1) (run ++ rest).length := by
  have items := items_of_split ends.split
  have proper := d.rootless_items
  obtain ⟨-, behind⟩ := apart_of_split ends.split
  rw [outline_eq, items]
  rw [items] at proper
  refine Outline.keeps_graft proper (fun item member c stands => ?_) ends.outside.startsBy ?_
    (fun item member visible => ?_) fun item member visible => ?_
  · have left := column_le_childColumn found
    rcases List.mem_append.mp member with inRun | inRest
    · exact Nat.le_trans left (grown.keys.column_le inRun stands)
    · have := grown.right item inRest c stands
      omega
  · obtain ⟨item, onLine, c, stands⟩ := ends.written.exists_item
    have := Line.start_lt_stop onLine (Kind.isGap_of_column? stands)
    have := (Line.bounds_of_mem_items onLine).2.2
    omega
  · obtain ⟨x, -, onLine⟩ := List.mem_flatMap.mp member
    have stop := stop_le_of_mem ends.split member
    have line := (Line.bounds_of_mem_items onLine).2.2
    have start := Line.start_lt_stop onLine visible
    refine Item.push_before (by omega) stop fun colon at' => ?_
    have := (Line.colon_bounds onLine at').2
    omega
  · obtain ⟨x, onLines, onLine⟩ := List.mem_flatMap.mp member
    have below := behind x onLines
    obtain ⟨start, -, -⟩ := Line.bounds_of_mem_items onLine
    have stop := Line.start_lt_stop onLine visible
    refine Item.push_behind (by omega) (by omega) fun colon at' => ?_
    have := (Line.colon_bounds onLine at').1
    omega

/-- New keys that are put behind the block of a node belong to the container that their column leaves open there. -/
theorem BlockEnds.grown {lines : List Line} {run rest : List Item} {path : KeyPath} {d' : Document} {k p : Nat}
    (ends : d.BlockEnds i n.column? upper l lower) (found : d.outline.nodes[i]? = some n) (nonempty : path ≠ [])
    (container : enclosing (closeTo (d.outline.childColumn i)
      (openedAfter [] 1 ((upper ++ [l]).flatMap Line.items))) = p)
    (grown : Line.PathLines (d.outline.childColumn i) path value lines run rest)
    (items : d'.items = (upper ++ [l]).flatMap Line.items ++ (run ++ rest) ++
      (lower.flatMap Line.items).map (Item.shift k)) :
    d.outline.Grown d'.outline p path (d.outline.childColumn i) l.stop k
      (((upper ++ [l]).flatMap Line.items).length + 1) (run ++ rest).length := by
  have proper := d'.rootless_items
  have valid := (stacked_nil 1).openedAfter ((upper ++ [l]).flatMap Line.items) Nat.zero_lt_one
  have early := (valid.closeTo (d.outline.childColumn i)).enclosing_lt (by omega)
  rw [container] at early
  rw [items] at proper
  rw [outline_eq d', items]
  exact Outline.grown_graft grown.keys nonempty proper grown.right (by omega) container (ends.keeps found grown k)

theorem hosts_follow {path missing : KeyPath} {base : Nat} (h : d.outline.follow 0 path = (base, missing)) :
    ∃ n, d.outline.nodes[base]? = some n ∧ Outline.Hosts n := by
  rcases (Outline.le_follow h).2 with rfl | ⟨n, name, found, named⟩
  · exact ⟨_, Outline.getElem?_ofItems_zero d.items, .inl rfl⟩
  · exact ⟨n, found, .inr ⟨name, named⟩⟩

theorem BlockEnds.exists_items (ends : d.BlockEnds i n.column? upper l lower) (last : l.content.getLast? ≠ some '\r')
    (plain : ∀ k ∈ key :: keys, k.IsPlainKey) (valid : value.IsValue) (br : LineBreak) (column : Nat) {d' : Document}
    (text : d'.text = before d.text l.stop ++ grownText br column true (key :: keys) value ++ after d.text l.stop) :
    ∃ ending lines run rest,
      d'.lines = upper ++ ⟨l.start, l.content, ending⟩ ::
        (lines ++ lower.map (Line.shift (bytes (grownText br column true (key :: keys) value)))) ∧
      Line.PathLines column (key :: keys) value lines run rest ∧
      d'.items = (upper ++ [l]).flatMap Line.items ++ (run ++ rest) ++
        (lower.flatMap Line.items).map (Item.shift (bytes (grownText br column true (key :: keys) value))) := by
  obtain ⟨above, tail, cut⟩ := exists_cut ends.split
  obtain ⟨content, ending, lines, run, rest, eqLines, -, same, grown⟩ := lines_grown cut plain valid br column text
  obtain rfl := same last
  exact ⟨ending, lines, run, rest, eqLines, grown, items_grown eqLines grown⟩

theorem BlockEnds.kept (ends : d.BlockEnds i n.column? upper l lower) {d' : Document} {more : List Item}
    (items : d'.items = (upper ++ [l]).flatMap Line.items ++ more) {k : Nat} (bound : k ≤ i) :
    d'.outline.nodes[k]? = d.outline.nodes[k]? := by
  have early := Nat.lt_succ_of_le (Nat.le_trans bound ends.inside)
  rw [outline_eq, outline_eq, items, items_of_split ends.split, Outline.getElem?_graft_of_lt early,
    Outline.getElem?_graft_of_lt early]

/-- A path that ended at a node goes on through the keys behind its block, if they come to belong to it. -/
theorem BlockEnds.follow_eq {start column : Nat} {path : KeyPath} {lines : List Line} {run rest more : List Item}
    {d' : Document} (ends : d.BlockEnds i n.column? upper l lower)
    (grown : Line.PathLines column (key :: keys) value lines run rest)
    (items : d'.items = (upper ++ [l]).flatMap Line.items ++ (run ++ rest) ++ more)
    (container : enclosing (closeTo column (openedAfter [] 1 ((upper ++ [l]).flatMap Line.items))) = i)
    (followed : d.outline.follow start path = (i, key :: keys)) : (d'.outline.follow start path).2 = [] := by
  rw [outline_eq, items_of_split ends.split] at followed
  rw [outline_eq, items, Outline.follow_graft grown.keys (List.cons_ne_nil _ _) followed ends.inside container]

/-- A path that ends at a node resolves once the missing keys stand behind the block of that node. Everything up to the
block is as before. -/
theorem BlockEnds.resolves {start : Nat} {path : KeyPath} (ends : d.BlockEnds i n.column? upper l lower)
    (found : d.outline.nodes[i]? = some n) (hosts : Outline.Hosts n) (spaced : d.outline.Spaced)
    (last : l.content.getLast? ≠ some '\r') (plain : ∀ k ∈ key :: keys, k.IsPlainKey) (valid : value.IsValue)
    (br : LineBreak) (followed : d.outline.follow start path = (i, key :: keys)) {d' : Document}
    (text : d'.text = before d.text l.stop ++ grownText br (d.outline.childColumn i) true (key :: keys) value ++
      after d.text l.stop) :
    ∃ ending lines run rest,
      d'.lines = upper ++ ⟨l.start, l.content, ending⟩ ::
        (lines ++ lower.map (Line.shift (bytes (grownText br (d.outline.childColumn i) true (key :: keys) value)))) ∧
      Line.PathLines (d.outline.childColumn i) (key :: keys) value lines run rest ∧
      (d'.outline.follow start path).2 = [] ∧
      (∀ k, k ≤ i → d'.outline.nodes[k]? = d.outline.nodes[k]?) ∧
      d.outline.Grown d'.outline i (key :: keys) (d.outline.childColumn i) l.stop
        (bytes (grownText br (d.outline.childColumn i) true (key :: keys) value))
        (((upper ++ [l]).flatMap Line.items).length + 1) (run ++ rest).length := by
  obtain ⟨ending, lines, run, rest, eqLines, grown, items⟩ := ends.exists_items last plain valid br _ text
  have container := ends.container found hosts spaced
  refine ⟨ending, lines, run, rest, eqLines, grown, ends.follow_eq grown items container followed, fun k bound => ?_,
    ends.grown found (List.cons_ne_nil _ _) container grown items⟩
  exact ends.kept (items.trans (List.append_assoc _ _ _)) bound

theorem ensurePath_of_insert {path : KeyPath} {value text : Text} {n : Nat}
    (grown : d.outline.grow d 0 path value .empty = .ok (Draft.empty.insert n text)) (h : Boundary d.text n) :
    d.ensurePath path value = .ok (⟨before d.text n ++ text ++ after d.text n⟩, some (.caret (n + bytes text))) := by
  rw [ensurePath, grown]
  exact Draft.apply_insert h text

theorem BlockEnds.ensurePath_eq {path : KeyPath} (ends : d.BlockEnds i n.column? upper l lower)
    (found : d.outline.nodes[i]? = some n) (container : n.isContainer = true)
    (followed : d.outline.follow 0 path = (i, key :: keys)) (value : Text) :
    d.ensurePath path value =
      let inserted := grownText d.lineBreak (d.outline.childColumn i) true (key :: keys) value
      .ok (⟨before d.text l.stop ++ inserted ++ after d.text l.stop⟩, some (.caret (l.stop + bytes inserted))) := by
  obtain ⟨above, tail, cut⟩ := exists_cut ends.split
  have grow : d.outline.grow d 0 path value .empty = .ok (Draft.empty.insert l.stop
      (grownText d.lineBreak (d.outline.childColumn i) true (key :: keys) value)) := by
    rw [Outline.grow, followed]
    exact growNew_eq found container ends _ _ _
  exact ensurePath_of_insert grow (boundary_stop cut)

/-- A missing path comes to stand behind the block of the node where it ends. -/
theorem ensurePath_missing {path : KeyPath} {base : Nat} (followed : d.outline.follow 0 path = (base, key :: keys))
    (written : ∃ l ∈ d.lines, l.Written) (noReturns : d.NoReturns) (spaced : d.outline.Spaced)
    (plain : ∀ k ∈ path, k.IsPlainKey) (valid : value.IsValue) :
    ∃ d' selection upper l lower ending lines run rest inserted,
      d.ensurePath path value = .ok (d', some selection) ∧
      d'.text = before d.text l.stop ++ inserted ++ after d.text l.stop ∧
      d.lines = upper ++ l :: lower ∧ l.Written ∧
      d'.lines = upper ++ ⟨l.start, l.content, ending⟩ :: (lines ++ lower.map (Line.shift (bytes inserted))) ∧
      Line.PathLines (d.outline.childColumn base) (key :: keys) value lines run rest ∧
      (d'.outline.follow 0 path).2 = [] ∧
      d.outline.Grown d'.outline base (key :: keys) (d.outline.childColumn base) l.stop (bytes inserted)
        (((upper ++ [l]).flatMap Line.items).length + 1) (run ++ rest).length := by
  obtain ⟨n, found, hosts⟩ := hosts_follow followed
  obtain ⟨upper, l, lower, ends⟩ := exists_blockEnds found hosts.isContainer written
  have last : l.content.getLast? ≠ some '\r' := noReturns l (by rw [ends.split]; simp)
  have plainMissing : ∀ k ∈ key :: keys, k.IsPlainKey := fun k member =>
    plain k ((Outline.follow_missing followed).1.mem member)
  obtain ⟨ending, lines, run, rest, eqLines, pathLines, resolves, -, grown⟩ :=
    ends.resolves found hosts spaced last plainMissing valid d.lineBreak followed rfl
  exact ⟨_, _, upper, l, lower, ending, lines, run, rest, _, ends.ensurePath_eq found hosts.isContainer followed value,
    rfl, ends.split, ends.written, eqLines, pathLines, resolves, grown⟩

/-- Where the path exists, a caret is placed and nothing else happens. There is none only where the path ends at a node
that has neither a child nor a colon. -/
theorem ensurePath_cases {path : KeyPath} {base : Nat} (followed : d.outline.follow 0 path = (base, []))
    (value : Text) :
    (∃ caret, Boundary d.text caret ∧ d.ensurePath path value = .ok (d, some (.caret caret))) ∨
      d.outline.firstChild? base = none ∧ (d.outline.kindOf base).colon? = none ∧
        d.ensurePath path value = .ok (d, none) := by
  have grow : d.outline.grow d 0 path value .empty = d.outline.enterValue d base .empty := by
    rw [Outline.grow, followed]
  rw [ensurePath, grow]
  rcases enterValue_eq d base .empty with ⟨caret, boundary, eq⟩ | ⟨childless, colon, eq⟩
  · rw [eq]
    exact .inl ⟨caret, boundary, Draft.apply_placeCaret boundary⟩
  · rw [eq]
    exact .inr ⟨childless, colon, Draft.apply_empty d⟩

theorem ensurePath_present {path : KeyPath} {base : Nat} (followed : d.outline.follow 0 path = (base, []))
    (value : Text) : ∃ selection, d.ensurePath path value = .ok (d, selection) := by
  rcases ensurePath_cases followed value with ⟨caret, -, eq⟩ | ⟨-, -, eq⟩
  · exact ⟨_, eq⟩
  · exact ⟨_, eq⟩

/-- `ensurePath` succeeds, and then the path resolves. All nodes are kept, and what is new is the missing keys and what
lies below the last of them. -/
theorem ensurePath_grows {d : Document} {path : KeyPath} {value : Text} (written : ∃ l ∈ d.lines, l.Written)
    (noReturns : d.NoReturns) (spaced : d.outline.Spaced) (plain : ∀ key ∈ path, key.IsPlainKey)
    (valid : value.IsValue) :
    ∃ d' selection, d.ensurePath path value = .ok (d', selection) ∧ (d'.outline.follow 0 path).2 = [] ∧
      ∃ offset inserted first count base missing,
        d'.text = before d.text offset ++ inserted ++ after d.text offset ∧
        d.outline.follow 0 path = (base, missing) ∧ (missing = [] → d' = d) ∧
        d.outline.Grown d'.outline base missing (d.outline.childColumn base) offset (bytes inserted) first count := by
  obtain ⟨⟨base, missing⟩, followed⟩ : ∃ p, d.outline.follow 0 path = p := ⟨_, rfl⟩
  cases missing with
  | nil =>
    obtain ⟨selection, eq⟩ := ensurePath_present followed value
    refine ⟨d, selection, eq, by rw [followed], 0, [], base + 1, 0, base, [], ?_, followed, fun _ => rfl, .refl _ _ _ _⟩
    rw [List.append_nil, before_append_after]
  | cons key keys =>
    obtain ⟨d', selection, upper, l, lower, ending, lines, run, rest, inserted, eq, text, -, -, -, -, resolves, grown⟩ :=
      ensurePath_missing followed written noReturns spaced plain valid
    exact ⟨d', selection, eq, resolves, l.stop, inserted, _, _, base, key :: keys, text, followed, nofun, grown⟩

/-- A comment below the block stays below it, and a value may bring lines of its own. -/
theorem ensurePath_grows_nested :
    let d : Document := ⟨"a:\n  b: 1\n\n# c\nd:\n  - x: 1\n".toList⟩
    let path := ["a".toList, "e".toList, "f".toList]
    (d.outline.follow 0 path).2 = ["e".toList, "f".toList] ∧
      ∃ d' selection, d.ensurePath path "\n- g".toList = .ok (d', selection) ∧ (d'.outline.follow 0 path).2 = [] := by
  intro d path
  obtain ⟨d', selection, eq, resolves, -⟩ := @ensurePath_grows d path "\n- g".toList
    (by decide) (by decide) (by decide) (by decide) (by decide)
  exact ⟨by decide, d', selection, eq, resolves⟩

end Document
end Offside
