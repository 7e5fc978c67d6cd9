import Mathlib.Data.List.TakeWhile
import Mathlib.Data.Nat.Init
import Offside.Proofs.Contexts
import Offside.Proofs.Growth

/-! Documents of blank and comment lines only. Their outline has nothing but gaps below the root, so that no key of a path
exists and all of it grows at the end of the text, behind whatever the last line holds. -/
namespace Offside

open Text Character

namespace Document

/-- No line is written: all of them are blank, or they hold a comment only. -/
def Bare (d : Document) : Prop := ∀ l ∈ d.lines, ¬l.Written

instance (d : Document) : Decidable d.Bare := inferInstanceAs (Decidable (∀ l ∈ d.lines, _))

variable {d : Document} {upper lower : List Line} {l : Line} {path : KeyPath} {value : Text}

theorem exists_written_of_not_bare (h : ¬d.Bare) : ∃ l ∈ d.lines, l.Written := by
  by_contra none
  exact h fun l member written => none ⟨l, member, written⟩

theorem Bare.gaps (bare : d.Bare) : ∀ item ∈ d.items, item.kind.column? = none :=
  Line.gaps_of_not_written d.lines bare

theorem Bare.isGap (bare : d.Bare) {i : Nat} {n : Node} (positive : 0 < i) (found : d.outline.nodes[i]? = some n) :
    n.isGap = true := by
  obtain ⟨k, item, rfl, at', rfl⟩ := Outline.exists_item_of_pos positive found
  have member := List.mem_of_getElem? at'
  exact d.rootless_items.isGap member (bare.gaps item member)

theorem Bare.firstChild? (bare : d.Bare) (i : Nat) : d.outline.firstChild? i = none := by
  cases first : d.outline.firstChild? i with
  | none => rfl
  | some child =>
    obtain ⟨n, j⟩ := child
    have member : (n, j) ∈ d.outline.realChildren i := List.mem_of_head? first
    have real := Outline.mem_realChildren_iff.mp member
    have positive : 0 < j := Nat.lt_of_le_of_lt (Nat.zero_le i) real.above
    have gap := bare.isGap positive real.found
    simp [real.visible] at gap

theorem firstChild?_root_eq_none_iff : d.outline.firstChild? 0 = none ↔ d.Bare := by
  constructor
  · intro none l member written
    have some := firstChild?_root written member
    simp [none] at some
  · intro bare
    exact bare.firstChild? 0

theorem Bare.follow (bare : d.Bare) (i : Nat) (path : KeyPath) : d.outline.follow i path = (i, path) := by
  cases path with
  | nil => rfl
  | cons key keys =>
    have absent : d.outline.childNamed? i key = none := by
      rw [Outline.childNamed?_eq_none_iff]
      intro j n child
      have positive : 0 < j := Nat.lt_of_le_of_lt (Nat.zero_le i) child.above
      have gap := bare.isGap positive child.found
      simp [Node.isGap, Kind.isGap_of_name? child.name] at gap
    rw [Outline.follow_cons, absent]

theorem exists_last_cut (d : Document) :
    ∃ upper last above, d.lines = upper ++ [last] ∧ Line.Cut 0 d.text upper last [] above none ∧
      d.length = last.stop := by
  obtain ⟨above, piece, upper, text, oneLine, whole⟩ := Line.exists_above 0 d.text
  have lines : d.lines = upper ++ [⟨0 + bytes above, piece, none⟩] := by
    rw [lines_eq, text, whole.reads, Line.read_piece _ oneLine]
  refine ⟨upper, ⟨0 + bytes above, piece, none⟩, above, lines, ⟨?_, whole, rfl, oneLine, rfl⟩, ?_⟩
  · simp [text, Line.Tail.text]
  · simp [length, text, Line.stop, Line.length]

/-- A path grows at the end of the document. It starts a line of its own unless the last line is blank. -/
theorem Bare.ensurePath_eq (bare : d.Bare) {above : Text} (cut : Line.Cut 0 d.text upper l [] above none)
    (ends : d.length = l.stop) (key : Text) (keys : KeyPath) (value : Text) :
    d.ensurePath (key :: keys) value =
      let inserted := grownText d.lineBreak 0 (!isBlank l.content) (key :: keys) value
      .ok (⟨before d.text l.stop ++ inserted ++ after d.text l.stop⟩, some (.caret (l.stop + bytes inserted))) := by
  have root : d.outline.kindOf 0 = .root := rfl
  have column : d.outline.childColumn 0 = 0 := rfl
  have offset : d.outline.growthOffset d 0 = .ok l.stop := by
    rw [Outline.growthOffset, if_pos ⟨root, by rw [bare.firstChild? 0]; rfl⟩, ends]
  have grow : d.outline.grow d 0 (key :: keys) value .empty = .ok (Draft.empty.insert l.stop
      (grownText d.lineBreak 0 (!isBlank l.content) (key :: keys) value)) := by
    rw [Outline.grow, bare.follow]
    simp [Outline.growNew, offset, lineBefore_stop cut, column, bind, Except.bind, pure, Except.pure]
  rw [ensurePath, grow]
  exact Draft.apply_insert (boundary_stop cut) _

end Document

theorem Text.isBlank_of_prefix {w key t : Text} (nonempty : w ≠ []) (blank : isBlank w = true)
    (h : key <+: w ++ (key ++ t)) : isBlank key = true := by
  induction length : key.length using Nat.strong_induction_on generalizing key t with
  | _ n ih =>
    obtain ⟨rest, whole⟩ := h
    rcases List.append_eq_append_iff.mp whole with ⟨more, rfl, -⟩ | ⟨more, rfl, eq⟩
    · rw [isBlank, List.all_append, Bool.and_eq_true] at blank
      exact blank.1
    · have shorter : more.length < n := by
        have := List.length_pos_iff.mpr nonempty
        rw [List.length_append] at length
        omega
      have again : more <+: w ++ (more ++ t) := ⟨rest, by rw [← eq, List.append_assoc]⟩
      have rest := ih more.length shorter again rfl
      rw [isBlank, List.all_append, Bool.and_eq_true]
      exact ⟨blank, rest⟩

theorem Text.trimEnd_prefix (t : Text) : trimEnd t <+: t := by
  have suffix := List.dropWhile_suffix isWhite (l := t.reverse)
  rw [← List.reverse_prefix, List.reverse_reverse] at suffix
  exact suffix

theorem Text.IsPlainKey.isBlank {key : Text} (plain : key.IsPlainKey) : isBlank key = false := by
  obtain ⟨c, rest, rfl, shape⟩ := plain.exists_shape
  obtain ⟨-, -, -, written⟩ := keyPart?_eq_some shape.found
  exact written

theorem Text.exists_spaces (t : Text) : ∃ n rest, t = spaces n ++ rest ∧ rest.head? ≠ some ' ' := by
  induction t with
  | nil => exact ⟨0, [], rfl, by simp⟩
  | cons c t ih =>
    by_cases space : c = ' '
    · obtain ⟨n, rest, eq, other⟩ := ih
      exact ⟨n + 1, rest, by rw [space, eq]; rfl, other⟩
    · exact ⟨0, c :: t, rfl, by simpa using space⟩

theorem Line.name?_leaf_ne {w key : Text} (plain : key.IsPlainKey) (nonempty : w ≠ []) (blank : isBlank w = true)
    (content : Text) (l : Line) (column : Nat) : (l.leaf column (w ++ key ++ ':' :: content)).kind.name? ≠ some key := by
  intro name
  unfold leaf at name
  split at name
  next part found =>
    obtain ⟨more, split, -⟩ := keyPart?_eq_some found
    have trimmed : trimEnd part = key := by simpa [Line.item, Kind.name?] using name
    have start : key <+: w ++ (key ++ ':' :: content) := by
      rw [← List.append_assoc, split, ← trimmed]
      exact (Text.trimEnd_prefix part).trans (List.prefix_append _ _)
    have white := Text.isBlank_of_prefix nonempty blank start
    simp [plain.isBlank] at white
  next => simp [Line.item, Kind.name?] at name

theorem Line.exists_item_mixed {l : Line} {key rest content : Text} {c : Char} {n : Nat} (plain : key.IsPlainKey)
    (blank : isBlank (c :: rest) = true) (space : c ≠ ' ')
    (text : l.content = spaces n ++ c :: (rest ++ key ++ ':' :: content)) :
    ∃ first, l.items = [first] ∧ first.kind.name? ≠ some key := by
  have white : isWhite c = true := by
    rw [isBlank, List.all_cons, Bool.and_eq_true] at blank
    exact blank.1
  have other {x : Char} (black : isWhite x = false) : c ≠ x := by
    rintro rfl
    simp [white] at black
  have indented : indentation l.content = some n := by
    rw [text]
    apply Text.indentation_spaces_append
    · simp [isBlank, show isWhite ':' = false by decide]
    · simpa using space
    · simpa using other (by decide)
  have items := items_written text indented
  by_cases tab : c = '\t'
  · rw [if_pos tab] at items
    exact ⟨_, items, by simp [Line.item, Kind.name?]⟩
  · have entry : ¬(c = '-' ∧ (rest ++ key ++ ':' :: content).head?.all (· == ' ') = true) := by
      rintro ⟨dash, -⟩
      exact other (by decide) dash
    rw [if_neg tab, itemsFrom_leaf _ _ space entry] at items
    exact ⟨_, items, name?_leaf_ne plain (List.cons_ne_nil c rest) blank content l n⟩

/-- Behind blanks, a line names the key that it holds before a colon exactly if the blanks are spaces. -/
theorem Line.exists_item_behind {l : Line} {w key content : Text} (plain : key.IsPlainKey) (blank : isBlank w = true)
    (text : l.content = w ++ key ++ ':' :: content) (separate : separates content = true) :
    ∃ first, l.items = [first] ∧
      ∀ column, first.kind.name? = some key ∧ first.kind.column? = some column ↔ w = spaces column := by
  obtain ⟨n, rest, rfl, space⟩ := Text.exists_spaces w
  cases rest with
  | nil =>
    rw [List.append_nil] at text
    obtain ⟨-, items⟩ := items_key plain text separate
    refine ⟨_, items, fun column => ?_⟩
    simp [Line.item, Kind.name?, Kind.column?, spaces]
  | cons c rest =>
    have space : c ≠ ' ' := by simpa using space
    have whites : isBlank (c :: rest) = true := by
      rw [isBlank, List.all_append, Bool.and_eq_true] at blank
      exact blank.2
    have text : l.content = spaces n ++ c :: (rest ++ key ++ ':' :: content) := by rw [text]; simp
    obtain ⟨first, items, unnamed⟩ := exists_item_mixed plain whites space text
    refine ⟨first, items, fun column => ?_⟩
    constructor
    · rintro ⟨named, -⟩
      exact absurd named unnamed
    · intro same
      have member : c ∈ spaces column := by rw [← same]; simp
      exact absurd (List.eq_of_mem_replicate member) space

namespace Outline

variable {gaps run : List Item} {first : Item} {key : Text} {keys : KeyPath}

theorem openedAfter_first (blank : ∀ item ∈ gaps, item.kind.column? = none) (first : Item) :
    openedAfter [] 1 (gaps ++ [first]) = openedBy [] (gaps.length + 1) first := by
  rw [openedAfter_append, openedAfter_gaps blank, Nat.add_comm 1]
  rfl

theorem openedBy_key {next column : Nat} {name : Text} (named : first.kind.name? = some name)
    (stands : first.kind.column? = some column) : openedBy [] next first = [⟨next, column⟩] := by
  obtain ⟨x, colon, kind⟩ := Kind.exists_key_of_name? named
  have container : first.kind.isContainer = true := by rw [kind]; rfl
  rw [openedBy, stands]
  simp [container, closeTo]

theorem node_first (blank : ∀ item ∈ gaps, item.kind.column? = none) (first : Item) (more : List Item) :
    (ofItems (gaps ++ first :: more)).nodes[gaps.length + 1]? = some ⟨first, some 0⟩ := by
  have upTo : (gaps ++ first :: more).take gaps.length = gaps := List.take_left
  rw [getElem?_ofItems_succ, upTo, openedAfter_gaps blank]
  cases stands : first.kind.column? <;> simp [enclosingOf, stands, closeTo, enclosing]

theorem IsChild.length_le (blank : ∀ item ∈ gaps, item.kind.column? = none) {more : List Item} {i j : Nat} {n : Node}
    {name : Text} (child : (ofItems (gaps ++ more)).IsChild i name j n) : gaps.length + 1 ≤ j := by
  by_contra early
  obtain ⟨k, item, rfl, found, rfl⟩ := exists_item_of_pos (Nat.lt_of_le_of_lt (Nat.zero_le i) child.above) child.found
  rw [List.getElem?_append_left (by omega)] at found
  obtain ⟨column, colon, kind⟩ := Kind.exists_key_of_name? child.name
  have gap := blank item (List.mem_of_getElem? found)
  rw [show item.kind = _ from kind] at gap
  contradiction

theorem enclosing_first (blank : ∀ item ∈ gaps, item.kind.column? = none) (named : first.kind.name? = some key)
    {column : Nat} (stands : first.kind.column? = some column) (c : Nat) :
    enclosing (closeTo c (openedAfter [] 1 (gaps ++ [first]))) = if column < c then gaps.length + 1 else 0 := by
  rw [openedAfter_first blank, openedBy_key named stands, closeTo]
  by_cases left : column < c
  · simp [left, enclosing]
  · simp [left, Nat.le_of_not_lt left, enclosing]

theorem follow_first (blank : ∀ item ∈ gaps, item.kind.column? = none) (named : first.kind.name? = some key)
    (keys : KeyPath) : (ofItems (gaps ++ [first])).follow 0 (key :: keys) = (gaps.length + 1, keys) := by
  have child : (ofItems (gaps ++ [first])).childNamed? 0 key = some (gaps.length + 1) := by
    rw [childNamed?_eq_some_iff]
    constructor
    · exact ⟨_, node_first blank first [], Nat.succ_pos _, rfl, named⟩
    · intro k x less other
      have := other.length_le blank
      omega
  rw [follow_cons, child]
  dsimp only
  cases keys with
  | nil => rfl
  | cons next keys =>
    have absent : (ofItems (gaps ++ [first])).childNamed? (gaps.length + 1) next = none := by
      rw [childNamed?_eq_none_iff]
      intro j n other
      have above := other.above
      have bound := (List.getElem?_eq_some_iff.mp other.found).1
      rw [length_ofItems, List.length_append, List.length_singleton] at bound
      omega
    rw [follow_cons, absent]

/-- Along a path that resolves, the keys follow each other, since there are no more nodes than keys. -/
theorem exists_child_of_follow {o : Outline} {i p : Nat} (followed : o.follow i (key :: keys) = (p, [])) :
    ∃ j n, o.IsChild i key j n ∧ o.follow j keys = (p, []) ∧ j + keys.length < o.nodes.length := by
  rw [follow_cons] at followed
  cases found : o.childNamed? i key with
  | none => simp [found] at followed
  | some j =>
    rw [found] at followed
    obtain ⟨⟨n, child⟩, -⟩ := childNamed?_eq_some_iff.mp found
    have steps := length_le_follow followed
    have bound : p < o.nodes.length := by
      rcases (le_follow followed).2 with rfl | ⟨x, name, at', -⟩
      · exact (List.getElem?_eq_some_iff.mp child.found).1
      · exact (List.getElem?_eq_some_iff.mp at').1
    exact ⟨j, n, child, followed, Nat.lt_of_le_of_lt steps bound⟩

theorem node_second (blank : ∀ item ∈ gaps, item.kind.column? = none) (named : first.kind.name? = some key)
    {column : Nat} (stands : first.kind.column? = some column) {next : Text} (h : KeyRun indentStep (next :: keys) run) :
    ∃ n, (ofItems (gaps ++ first :: run)).nodes[gaps.length + 2]? = some n ∧
      n.parent = some (if column < indentStep then gaps.length + 1 else 0) := by
  have shape : gaps ++ first :: run = gaps ++ [first] ++ (run ++ []) ++ [] := by simp
  obtain ⟨n, found, -, -, -, parent⟩ := getElem?_run (gaps ++ [first]) [] [] h
    (show (next :: keys)[0]? = some next from rfl)
  rw [← shape, List.length_append, List.length_singleton] at found
  rw [if_pos rfl, enclosing_first blank named stands] at parent
  exact ⟨n, found, parent⟩

/-- A path whose first key comes right behind the gaps, with the others in a run behind it, resolves exactly if the
first key is named so and stands left of the others. -/
theorem follow_first_iff (blank : ∀ item ∈ gaps, item.kind.column? = none) (h : KeyRun indentStep keys run) :
    ((ofItems (gaps ++ first :: run)).follow 0 (key :: keys)).2 = [] ↔
      ∃ column, (first.kind.name? = some key ∧ first.kind.column? = some column) ∧
        (column < indentStep ∨ keys = []) := by
  have size : (ofItems (gaps ++ first :: run)).nodes.length = gaps.length + keys.length + 2 := by
    rw [length_ofItems, List.length_append, List.length_cons, h.length]
    omega
  constructor
  · intro resolves
    obtain ⟨p, followed⟩ : ∃ p, (ofItems (gaps ++ first :: run)).follow 0 (key :: keys) = (p, []) :=
      ⟨_, Prod.ext rfl resolves⟩
    obtain ⟨j, n, child, followed, bound⟩ := exists_child_of_follow followed
    have late := child.length_le blank
    obtain rfl : j = gaps.length + 1 := by omega
    obtain rfl := Option.some.inj (child.found.symm.trans (node_first blank first run))
    have named : first.kind.name? = some key := child.name
    obtain ⟨column, colon, kind⟩ := Kind.exists_key_of_name? named
    have stands : first.kind.column? = some column := by rw [kind]; rfl
    refine ⟨column, ⟨named, stands⟩, ?_⟩
    cases keys with
    | nil => exact .inr rfl
    | cons next keys =>
      left
      by_contra wide
      obtain ⟨j, n, child, -, bound⟩ := exists_child_of_follow followed
      have above := child.above
      rw [List.length_cons] at size
      obtain rfl : j = gaps.length + 2 := by omega
      obtain ⟨x, found, parent⟩ := node_second blank named stands h
      obtain rfl := Option.some.inj (child.found.symm.trans found)
      rw [if_neg wide] at parent
      have root := Option.some.inj (parent.symm.trans child.parent)
      omega
  · rintro ⟨column, ⟨named, stands⟩, order⟩
    have followed := follow_first blank named keys
    cases keys with
    | nil =>
      obtain rfl : run = [] := h
      rw [followed]
    | cons next keys =>
      have left : column < indentStep := by simpa using order
      have container := enclosing_first blank named stands indentStep
      rw [if_pos left] at container
      have early : gaps.length + 1 ≤ (gaps ++ [first]).length := by simp
      have shape : gaps ++ first :: run = gaps ++ [first] ++ (run ++ []) ++ [] := by simp
      rw [← List.append_nil (gaps ++ [first])] at followed
      rw [shape, follow_graft h (List.cons_ne_nil _ _) followed early container]

end Outline

/-- The line holds a comment and nothing else. -/
def Line.IsComment (l : Line) : Prop := (l.content.dropWhile (· == ' ')).head? = some '#'

instance (l : Line) : Decidable l.IsComment := inferInstanceAs (Decidable (_ = _))

theorem Line.isComment_iff {l : Line} :
    l.IsComment ↔ isBlank l.content = false ∧ indentation l.content = none := by
  have parts : l.content.takeWhile (· == ' ') ++ l.content.dropWhile (· == ' ') = l.content :=
    List.takeWhile_append_dropWhile
  have lead : isBlank (l.content.takeWhile (· == ' ')) = true := by
    rw [isBlank, List.all_eq_true]
    intro c member
    have space : c = ' ' := by simpa using List.mem_takeWhile_imp member
    rw [space]
    decide
  have whole : isBlank l.content = isBlank (l.content.dropWhile (· == ' ')) := by
    conv_lhs => rw [← parts]
    rw [isBlank, List.all_append, show List.all _ isWhite = true from lead, Bool.true_and]
    rfl
  constructor
  · intro comment
    have mark : (l.content.dropWhile (· == ' ')).head? = some '#' := comment
    constructor
    · obtain ⟨rest, eq⟩ := List.head?_eq_some_iff.mp mark
      rw [whole, eq]
      simp [isBlank, show isWhite '#' = false by decide]
    · simp [indentation, mark]
  · rintro ⟨written, unindented⟩
    rw [whole] at written
    by_contra other
    have mark : (l.content.dropWhile (· == ' ')).head? ≠ some '#' := other
    simp [indentation, written, mark] at unindented

theorem Line.IsComment.of_return {l : Line} {content : Text} (comment : l.IsComment)
    (same : l.content = content ∨ l.content = content ++ ['\r']) (start : Nat) (ending : Option LineBreak) :
    (Line.mk start content ending).IsComment := by
  rw [Line.isComment_iff] at comment ⊢
  rcases same with eq | eq
  · rwa [eq] at comment
  · obtain ⟨written, unindented⟩ := comment
    rw [eq] at written unindented
    rw [Text.indentation_return] at unindented
    have white : isWhite '\r' = true := by decide
    refine ⟨?_, unindented⟩
    simpa [isBlank, white] using written

theorem Line.read_first {w key value : Text} {keys : KeyPath} (noBreak : '\n' ∉ w)
    (plain : ∀ k ∈ key :: keys, k.IsPlainKey) (valid : value.IsValue) (oneLine : '\n' ∉ value) (start : Nat)
    (br : LineBreak) :
    ∃ content ending lines,
      read start (w ++ grownText br 0 false (key :: keys) value) =
        ⟨start, w ++ key ++ ':' :: content, ending⟩ :: lines ∧
      separates content = true ∧ KeyRun indentStep keys (lines.flatMap Line.items) := by
  have plainKey := plain key List.mem_cons_self
  have whole : '\n' ∉ w ++ key ++ [':'] := by simpa using ⟨noBreak, plainKey.notMem_newline⟩
  cases keys with
  | nil =>
    have text : w ++ grownText br 0 false [key] value =
        w ++ key ++ ':' :: ((if value.head?.all isWhite then [] else [' ']) ++ value) := by
      simp [grownText_single, Text.shiftLines_of_notMem oneLine, colonPart]
    have single : '\n' ∉ w ++ key ++ ':' :: ((if value.head?.all isWhite then [] else [' ']) ++ value) := by
      simp only [List.mem_append, List.mem_cons, not_or] at whole ⊢
      refine ⟨whole.1, by decide, ?_, oneLine⟩
      split <;> simp
    refine ⟨_, none, [], ?_, separates_value valid List.prefix_rfl oneLine, rfl⟩
    rw [text, read_piece start single]
  | cons next keys =>
    have last : (w ++ key ++ [':']).getLast? ≠ some '\r' := by simp
    obtain ⟨content, -, same, ending, first⟩ := read_tail start
      (some (br, spaces indentStep ++ grownText br indentStep false (next :: keys) value)) whole
    obtain rfl := same last
    obtain ⟨lines, run, rest, below, path⟩ := read_path (fun k member => plain k (List.mem_cons_of_mem _ member)) valid
      (start + bytes (w ++ key ++ [':']) + bytes br.text) br indentStep none
    have items := path.items
    rw [path.single oneLine, List.append_nil] at items
    refine ⟨[], ending, lines, ?_, rfl, by rw [items]; exact path.keys⟩
    have text : w ++ grownText br 0 false (key :: next :: keys) value = w ++ key ++ [':'] ++ Tail.text
        (some (br, spaces indentStep ++ grownText br indentStep false (next :: keys) value)) := by
      simp [grownText_cons, Tail.text]
    simp only [Tail.text, Tail.lines, List.append_nil] at below
    rw [text, first, Tail.lines, below]

namespace Document

variable {d d' : Document} {upper lines : List Line} {l : Line} {key value w content : Text} {keys : KeyPath}

/-- Below lines that are not written, a path whose first key stands behind blanks resolves exactly if those are spaces,
and fewer of them than the next key has. -/
theorem follow_behind_iff {start : Nat} {ending : Option LineBreak}
    (split : d'.lines = upper ++ ⟨start, w ++ key ++ ':' :: content, ending⟩ :: lines)
    (bare : ∀ l ∈ upper, ¬l.Written) (plain : key.IsPlainKey) (blank : isBlank w = true)
    (separate : separates content = true) (run : KeyRun indentStep keys (lines.flatMap Line.items)) :
    (d'.outline.follow 0 (key :: keys)).2 = [] ↔ ∃ n, w = spaces n ∧ (n < indentStep ∨ keys = []) := by
  obtain ⟨first, single, iff⟩ := Line.exists_item_behind (l := ⟨start, w ++ key ++ ':' :: content, ending⟩) plain blank
    rfl separate
  have items : d'.items = upper.flatMap Line.items ++ first :: lines.flatMap Line.items := by
    rw [Document.items, split, List.flatMap_append, List.flatMap_cons, single]
    rfl
  rw [outline_eq, items, Outline.follow_first_iff (Line.gaps_of_not_written upper bare) run]
  simp only [iff]

/-- Every line that holds a comment still does, at the same place. -/
def KeepsComments (d d' : Document) : Prop :=
  ∀ (k : Nat) (l : Line), d.lines[k]? = some l → l.IsComment →
    ∃ l' : Line, d'.lines[k]? = some l' ∧ l'.start = l.start ∧ l'.IsComment

theorem keepsComments_of_split {last x : Line} {more : List Line} (old : d.lines = upper ++ [last])
    (new : d'.lines = upper ++ x :: more) (same : last.IsComment → x.start = last.start ∧ x.IsComment) :
    d.KeepsComments d' := by
  intro k l found comment
  rw [old] at found
  rw [new]
  by_cases early : k < upper.length
  · rw [List.getElem?_append_left early] at found ⊢
    exact ⟨l, found, rfl, comment⟩
  · rw [List.getElem?_append_right (Nat.le_of_not_lt early), List.getElem?_singleton] at found
    rw [List.getElem?_append_right (Nat.le_of_not_lt early)]
    split at found
    next at' =>
      obtain rfl := Option.some.inj found
      rw [at']
      exact ⟨x, rfl, same comment⟩
    next => contradiction

variable {last : Line} {above : Text}

theorem follow_behind_blanks (bare : d.Bare) (split : d.lines = upper ++ [last])
    (cut : Line.Cut 0 d.text upper last [] above none) (blank : isBlank last.content = true)
    (plain : ∀ k ∈ key :: keys, k.IsPlainKey) (valid : value.IsValue) (oneLine : '\n' ∉ value) (br : LineBreak)
    (text : d'.text = before d.text last.stop ++ grownText br 0 false (key :: keys) value ++ after d.text last.stop) :
    ((d'.outline.follow 0 (key :: keys)).2 = [] ↔
      ∃ n, last.content = spaces n ∧ (n < indentStep ∨ keys = [])) ∧ d.KeepsComments d' := by
  obtain ⟨content, ending, lines, eq, separate, run⟩ :=
    Line.read_first cut.oneLine plain valid oneLine (0 + bytes above) br
  have new : d'.lines = upper ++ ⟨0 + bytes above, last.content ++ key ++ ':' :: content, ending⟩ :: lines := by
    rw [before_stop cut, after_stop cut] at text
    rw [lines_eq, text, ← eq, ← cut.whole.reads]
    simp [Line.Tail.text]
  have bareAbove : ∀ l ∈ upper, ¬l.Written := by
    intro l member
    exact bare l (by rw [split]; exact List.mem_append_left _ member)
  constructor
  · exact follow_behind_iff new bareAbove (plain key List.mem_cons_self) blank separate run
  · apply keepsComments_of_split split new
    intro comment
    simp [(Line.isComment_iff.mp comment).1] at blank

/-- Behind a comment, the first key starts a line of its own, at the margin. -/
theorem follow_behind_comment (bare : d.Bare) (split : d.lines = upper ++ [last])
    (cut : Line.Cut 0 d.text upper last [] above none) (written : isBlank last.content = false)
    (plain : ∀ k ∈ key :: keys, k.IsPlainKey) (valid : value.IsValue) (oneLine : '\n' ∉ value) (br : LineBreak)
    (text : d'.text = before d.text last.stop ++ grownText br 0 true (key :: keys) value ++ after d.text last.stop) :
    (d'.outline.follow 0 (key :: keys)).2 = [] ∧ d.KeepsComments d' := by
  obtain ⟨content, ending, lines, run, rest, new, same, -, path⟩ := lines_grown cut plain valid br 0 text
  have unwritten := Line.not_written.mp (bare last (by simp [split]))
  have comment : (Line.mk last.start content ending).IsComment :=
    (Line.isComment_iff.mpr ⟨written, unwritten⟩).of_return same last.start ending
  have bareAbove : ∀ l ∈ upper ++ [⟨last.start, content, ending⟩], ¬l.Written := by
    intro l member
    rcases List.mem_append.mp member with earlier | same
    · exact bare l (by rw [split]; exact List.mem_append_left _ earlier)
    · rw [List.mem_singleton.mp same, Line.not_written]
      exact (Line.isComment_iff.mp comment).2
  constructor
  · have items := path.items
    rw [path.single oneLine, List.append_nil] at items
    obtain ⟨colon, start, stop, later, rfl, run⟩ := path.keys
    rw [List.map_nil, List.append_nil, List.append_cons] at new
    rw [outline_eq, Document.items, new, List.flatMap_append, items,
      Outline.follow_first_iff (Line.gaps_of_not_written _ bareAbove) run]
    exact ⟨0, ⟨rfl, rfl⟩, .inl Nat.two_pos⟩
  · exact keepsComments_of_split split new fun _ => ⟨rfl, comment⟩

/-- In a document of blank and comment lines, `ensurePath` succeeds and keeps all comments. The path resolves unless the
last line is blank and holds white space other than spaces, or so many of them that the second key does not come to stand
right of the first. -/
theorem ensurePath_bare (bare : d.Bare) (plain : ∀ k ∈ key :: keys, k.IsPlainKey) (valid : value.IsValue)
    (oneLine : '\n' ∉ value) :
    ∃ d' selection last, d.ensurePath (key :: keys) value = .ok (d', selection) ∧ d.lines.getLast? = some last ∧
      ((d'.outline.follow 0 (key :: keys)).2 = [] ↔
        (isBlank last.content = true → ∃ n, last.content = spaces n ∧ (n < indentStep ∨ keys = []))) ∧
      d.KeepsComments d' := by
  obtain ⟨upper, last, above, split, cut, ends⟩ := exists_last_cut d
  have whole : d.lines.getLast? = some last := by simp [split]
  have eq := bare.ensurePath_eq cut ends key keys value
  cases blank : isBlank last.content with
  | true =>
    rw [blank, Bool.not_true] at eq
    obtain ⟨iff, keeps⟩ := follow_behind_blanks bare split cut blank plain valid oneLine d.lineBreak rfl
    refine ⟨_, _, last, eq, whole, ?_, keeps⟩
    rw [iff]
    simp [blank]
  | false =>
    rw [blank, Bool.not_false] at eq
    obtain ⟨resolves, keeps⟩ := follow_behind_comment bare split cut blank plain valid oneLine d.lineBreak rfl
    refine ⟨_, _, last, eq, whole, ?_, keeps⟩
    constructor
    · intro _ white
      simp [blank] at white
    · intro _
      exact resolves

/-- The last line is a comment, or it holds a single space. -/
theorem ensurePath_bare_comment_space :
    let path : KeyPath := ["a".toList, "b".toList]
    let resolves (text : String) := ∃ d' selection,
      (Document.mk text.toList).ensurePath path " 1".toList = .ok (d', selection) ∧ (d'.outline.follow 0 path).2 = []
    resolves "\r\n  # c" ∧ resolves "# c\n " := by
  intro path resolves
  have each (text : String) (bare : (Document.mk text.toList).Bare) (tidy : ∀ l ∈ (Document.mk text.toList).lines.getLast?,
      isBlank l.content = true → l.content = spaces 1) : resolves text := by
    obtain ⟨d', selection, last, eq, whole, iff, -⟩ := @ensurePath_bare _ "a".toList " 1".toList ["b".toList] bare
      (by decide) (by decide) (by decide)
    exact ⟨d', selection, eq, iff.mpr fun blank => ⟨1, tidy last whole blank, .inl Nat.one_lt_two⟩⟩
  exact ⟨each _ (by decide) (by decide), each _ (by decide) (by decide)⟩

/-- Behind two spaces the second key stands level with the first, and does not come to lie below it. -/
theorem ensurePath_bare_level :
    let d : Document := ⟨"  ".toList⟩
    let path : KeyPath := ["a".toList, "b".toList]
    d.Bare ∧ (∀ k ∈ path, k.IsPlainKey) ∧
      ∃ d' selection, d.ensurePath path [] = .ok (d', selection) ∧ d'.outline.follow 0 path = (1, ["b".toList]) := by
  intro d path
  have eq : d.ensurePath path [] = .ok (⟨"  a:\n  b:".toList⟩, some (.caret 9)) :=
    @ensurePath_of_insert d path [] "a:\n  b:".toList 2 rfl rfl
  exact ⟨by decide, by decide, _, _, eq, by decide⟩

end Document
end Offside
