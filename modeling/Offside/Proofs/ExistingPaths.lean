import Offside.Proofs.DocumentOrder
import Offside.Proofs.Subtrees

/-! Paths that exist already. To make one exist changes no text, and takes the caret to where the value of its last key goes:
to what comes first below the key, or behind the key's colon. -/
namespace Offside.Document

open Text

variable {d : Document} {upper lower : List Line} {l : Line} {above : Text} {tail : Line.Tail} {i : Nat} {n : Node}

theorem exists_behind_colon (cut : Line.Cut 0 d.text upper l lower above tail) {lead t : Text}
    (content : l.content = lead ++ ':' :: t) {colon : Nat} (place : colon = l.start + bytes lead) :
    ∃ front rest, l.content = front ++ rest ∧ colon < l.start + bytes front ∧
      (if d.charAt? (colon + 1) = some ' ' then colon + 2 else colon + 1) = l.start + bytes front := by
  have cuts : l.Cuts (bytes (lead ++ [':'])) t := ⟨lead ++ [':'], by rw [content]; simp, rfl⟩
  obtain ⟨boundary, behind⟩ := boundary_of_cuts cut cuts
  have next : colon + 1 = l.start + bytes (lead ++ [':']) := by simp [place, Nat.add_assoc]
  by_cases blank : d.charAt? (colon + 1) = some ' '
  · rw [if_pos blank]
    rw [charAt?_eq_some_iff, next, behind] at blank
    cases t with
    | nil =>
      -- No ending begins with a blank.
      obtain ⟨-, ending⟩ := blank
      match tail with
      | none => contradiction
      | some (.lf, _) => simp [Line.Tail.text, LineBreak.text] at ending
      | some (.crlf, _) => simp [Line.Tail.text, LineBreak.text] at ending
    | cons c t =>
      obtain rfl : c = ' ' := by simpa using blank.2
      refine ⟨lead ++ [':', ' '], t, by rw [content]; simp, ?_, ?_⟩
      · simp [place]
      · simp [place, Nat.add_assoc]
  · rw [if_neg blank, next]
    exact ⟨lead ++ [':'], t, by rw [content]; simp, by simp [place], rfl⟩

theorem enterValue_childless (found : d.outline.nodes[i]? = some n) {column colon : Nat} {name : Text}
    (key : n.kind = .key column name colon) (childless : d.outline.firstChild? i = none) (draft : Draft) :
    ∃ caret k, d.outline.enterValue d i draft = .ok (draft.placeCaret caret) ∧ Boundary d.text caret ∧ colon < caret ∧
      caret ≤ n.stop ∧ d.lineOf n.start = .ok k ∧ d.lineOf caret = .ok k := by
  obtain ⟨upper, l, lower, above, tail, split, cut, onLine⟩ :=
    exists_line_of_mem_items (mem_items_of_node found (by rw [key]; nofun))
  obtain ⟨a, part, t, content, -, -, -, start, place⟩ := Line.exists_key onLine key
  rw [Nat.add_assoc, ← bytes_append] at place
  obtain ⟨front, rest, content', behind, caret⟩ := exists_behind_colon cut content place
  have cuts : l.Cuts (bytes front) rest := ⟨front, content', rfl⟩
  have := cuts.length
  refine ⟨l.start + bytes front, upper.length, ?_, (boundary_of_cuts cut cuts).1, behind, ?_, ?_,
    lineOf_of_content split content'⟩
  · have kind : (d.outline.kindOf i).colon? = some colon := by rw [Outline.kindOf, found, Option.map_some, key]; rfl
    have char := charAt?_colon kind
    rw [← caret]
    simp [Outline.enterValue, childless, kind, charAt, char, bind, Except.bind, pure, Except.pure]
  · rw [(Line.bounds_of_mem_items onLine).2.2, Line.stop]
    omega
  · rw [start]
    exact lineOf_of_content split (content.trans (List.append_assoc _ _ _))

/-- What comes first below a key begins behind the key's line, and the key's block reaches beyond it. -/
theorem bounds_of_firstChild? (found : d.outline.nodes[i]? = some n) {column colon j : Nat} {name : Text} {child : Node}
    (key : n.kind = .key column name colon) (first : d.outline.firstChild? i = some (child, j)) :
    n.stop < child.start ∧ child.start < d.outline.blockEnd i := by
  have stands : n.column? = some column := by rw [Node.column?, key]; rfl
  have container : n.isContainer = true := by rw [Node.isContainer, key]; rfl
  have real := Outline.mem_realChildren_iff.mp (List.mem_of_head? first)
  refine ⟨stop_lt_start_of_key found key real.above real.found, ?_⟩
  obtain ⟨c, upper, l, lower, stands, ends, stop⟩ :=
    exists_blockEnds_of_pos (Outline.pos_of_column? found stands) found container
  rw [stop]
  exact ((ends.below_iff_start found container stands real.found real.visible).mp (.child real.found real.parent)).2

/-- Where a path leads to a key, `ensurePath` changes no text. The caret goes to what comes first below the key, or else to
the key's line, behind the colon in either case and not beyond the key's block. -/
theorem ensurePath_enters {path : KeyPath} (nonempty : path ≠ []) (followed : d.outline.follow 0 path = (i, []))
    (value : Text) :
    ∃ n colon caret, d.outline.nodes[i]? = some n ∧ n.kind.colon? = some colon ∧
      d.ensurePath path value = .ok (d, some (.caret caret)) ∧ colon < caret ∧ caret ≤ d.outline.blockEnd i ∧
      (∀ child j, d.outline.firstChild? i = some (child, j) → caret = child.start) ∧
      (d.outline.firstChild? i = none → ∃ k, d.lineOf n.start = .ok k ∧ d.lineOf caret = .ok k) := by
  have le := Outline.length_le_follow followed
  have := List.length_pos_iff.mpr nonempty
  have positive : 0 < i := by simp only [List.length_nil] at le; omega
  obtain ⟨-, origin⟩ := Outline.le_follow followed
  obtain ⟨n, name, found, named⟩ := origin.resolve_left (Nat.ne_of_gt positive)
  obtain ⟨column, colon, key⟩ := Kind.exists_key_of_name? named
  have grow : d.outline.grow d 0 path value .empty = d.outline.enterValue d i .empty := by rw [Outline.grow, followed]
  rw [ensurePath, grow]
  have at' : n.kind.colon? = some colon := by rw [key]; rfl
  cases first : d.outline.firstChild? i with
  | none =>
    obtain ⟨caret, k, eq, boundary, behind, within, own, line⟩ := enterValue_childless found key first .empty
    have : n.stop ≤ d.outline.blockEnd i :=
      (Outline.isGreatest_blockEnd d.rootless_items found).2 ⟨i, n, found, .inl rfl, rfl⟩
    rw [eq]
    refine ⟨n, colon, caret, found, at', Draft.apply_placeCaret boundary, behind, by omega, ?_, fun _ => ⟨k, own, line⟩⟩
    intro child j present
    contradiction
  | some pair =>
    obtain ⟨child, j⟩ := pair
    have before := (keyAt_of_kind found key).stops
    obtain ⟨behind, within⟩ := bounds_of_firstChild? found key first
    have eq : d.outline.enterValue d i .empty = .ok (.placeCaret .empty child.start) := by rw [Outline.enterValue, first]
    rw [eq]
    refine ⟨n, colon, child.start, found, at', Draft.apply_placeCaret (boundary_firstChild first), by omega, by omega, ?_, ?_⟩
    · intro child' j' same
      obtain ⟨rfl, -⟩ := Prod.mk.inj (Option.some.inj same)
      rfl
    · intro childless
      contradiction

/-- A comment is no child, and a carriage return does not belong to the line. -/
theorem ensurePath_enters_returned :
    let d : Document := ⟨"a:\r\n  # c\r\n  - b\r\nd:\r\n".toList⟩
    d.ensurePath ["a".toList] " x".toList = .ok (d, some (.caret 13)) ∧
      d.ensurePath ["d".toList] " x".toList = .ok (d, some (.caret 20)) := by
  intro d
  constructor
  · obtain ⟨n, colon, caret, -, -, eq, -, -, child, -⟩ :=
      @ensurePath_enters d 1 ["a".toList] (by decide) (by decide) " x".toList
    have place : caret = 13 := child ⟨⟨.entry 2, 13, 16⟩, some 1⟩ 3 (by decide)
    rwa [place] at eq
  · obtain ⟨n, colon, caret, found, at', eq, behind, within, -⟩ :=
      @ensurePath_enters d 5 ["d".toList] (by decide) (by decide) " x".toList
    have node : d.outline.nodes[5]? = some ⟨⟨.key 0 "d".toList 19, 18, 20⟩, some 0⟩ := by decide
    obtain rfl := Option.some.inj (found.symm.trans node)
    obtain rfl : 19 = colon := Option.some.inj at'
    have stop : d.outline.blockEnd 5 = 20 := by decide
    obtain rfl : caret = 20 := by omega
    exact eq

end Offside.Document
