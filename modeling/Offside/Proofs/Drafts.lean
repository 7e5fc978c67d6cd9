import Offside.Outline.Growth
import Offside.Proofs.OffsideRule

/-! Drafts that apply: their places are boundaries of the document, as every place is that an outline of the
document names. -/
namespace Offside

open Text

namespace Document

variable {d : Document} {upper lower : List Line} {l : Line} {above : Text} {tail : Line.Tail}

theorem boundary_of_cuts (cut : Line.Cut 0 d.text upper l lower above tail) {column : Nat} {t : Text}
    (cuts : l.Cuts column t) :
    Boundary d.text (l.start + column) ∧ after d.text (l.start + column) = t ++ tail.text := by
  obtain ⟨a, content, rfl⟩ := cuts
  have text : d.text = above ++ a ++ (t ++ tail.text) := by rw [cut.text, content]; simp
  have place : l.start + bytes a = bytes (above ++ a) := by rw [cut.begins, bytes_append, Nat.zero_add]
  rw [text, place]
  exact ⟨boundary_iff.mpr ⟨_, _, rfl, rfl⟩, after_bytes_append _ _⟩

theorem before_of_content (cut : Line.Cut 0 d.text upper l lower above tail) {a t : Text} (content : l.content = a ++ t) :
    before d.text (l.start + bytes a) = above ++ a := by
  have text : d.text = above ++ a ++ (t ++ tail.text) := by rw [cut.text, content]; simp
  have place : l.start + bytes a = bytes (above ++ a) := by rw [cut.begins, bytes_append, Nat.zero_add]
  rw [text, place, before_bytes_append]

theorem charAt?_eq_some_iff {n : Nat} {c : Char} :
    d.charAt? n = some c ↔ Boundary d.text n ∧ (after d.text n).head? = some c := by
  rw [charAt?]
  split <;> simp_all

theorem boundary_add {n : Nat} {c : Char} (h : d.charAt? n = some c) : Boundary d.text (n + c.utf8Size) := by
  obtain ⟨boundary, first⟩ := charAt?_eq_some_iff.mp h
  obtain ⟨rest, eq⟩ := List.head?_eq_some_iff.mp first
  have text := before_append_after d.text n
  rw [eq] at text
  refine boundary_iff.mpr ⟨before d.text n ++ [c], rest, by rw [List.append_assoc]; exact text.symm, ?_⟩
  rw [bytes_append, show bytes (before d.text n) = n from boundary]
  rfl

theorem exists_line_of_mem_items {item : Item} (member : item ∈ d.items) : ∃ upper l lower above tail,
    d.lines = upper ++ l :: lower ∧ Line.Cut 0 d.text upper l lower above tail ∧ item ∈ l.items := by
  obtain ⟨l, onLines, onLine⟩ := List.mem_flatMap.mp member
  obtain ⟨upper, lower, split⟩ := List.append_of_mem onLines
  obtain ⟨above, tail, cut⟩ := exists_cut split
  exact ⟨upper, l, lower, above, tail, split, cut, onLine⟩

theorem places_of_mem_items {item : Item} {column : Nat} (member : item ∈ d.items)
    (stands : item.kind.column? = some column) :
    Boundary d.text item.start ∧ ∀ colon, item.kind.colon? = some colon → d.charAt? colon = some ':' := by
  obtain ⟨upper, l, lower, above, tail, -, cut, onLine⟩ := exists_line_of_mem_items member
  obtain ⟨c, placed⟩ := Line.placed_of_isGap onLine (Kind.isGap_of_column? stands)
  constructor
  · obtain ⟨t, -, cuts⟩ := placed.cuts
    rw [placed.start]
    exact (boundary_of_cuts cut cuts).1
  · intro colon at'
    obtain ⟨c, t, rfl, cuts⟩ := placed.colon colon at'
    obtain ⟨boundary, rest⟩ := boundary_of_cuts cut cuts
    exact charAt?_eq_some_iff.mpr ⟨boundary, by rw [rest]; rfl⟩

theorem mem_items_of_node {i : Nat} {n : Node} (found : d.outline.nodes[i]? = some n) (root : n.kind ≠ .root) :
    n.toItem ∈ d.items := by
  cases i with
  | zero =>
    obtain rfl := Option.some.inj ((Outline.getElem?_ofItems_zero d.items).symm.trans found)
    exact absurd rfl root
  | succ k =>
    rw [outline_eq, Outline.getElem?_ofItems_succ] at found
    obtain ⟨item, at', rfl⟩ := Option.map_eq_some_iff.mp found
    exact List.mem_of_getElem? at'

theorem boundary_firstChild {i j : Nat} {child : Node} (first : d.outline.firstChild? i = some (child, j)) :
    Boundary d.text child.start := by
  have member : (child, j) ∈ d.outline.realChildren i := List.mem_of_head? first
  obtain ⟨inside, visible⟩ := List.mem_filter.mp member
  have found := List.mem_zipIdx_iff_getElem?.mp (List.mem_filter.mp inside).1
  have below := (Outline.bounds_of_mem_children inside).1
  have root := Outline.ne_root_of_pos d.rootless_items (Nat.lt_of_le_of_lt (Nat.zero_le i) below) found
  obtain ⟨column, stands⟩ := Kind.column?_of_isGap root (by simpa [Node.isGap] using visible)
  exact (places_of_mem_items (mem_items_of_node found root) stands).1

theorem charAt?_colon {i colon : Nat} (at' : (d.outline.kindOf i).colon? = some colon) :
    d.charAt? colon = some ':' := by
  rw [Outline.kindOf] at at'
  cases found : d.outline.nodes[i]? with
  | none => simp [found, Kind.colon?] at at'
  | some n =>
    rw [found, Option.map_some, Option.getD_some] at at'
    obtain ⟨column, name, kind⟩ := Kind.exists_key_of_colon? at'
    have root : n.kind ≠ .root := by simp [kind]
    have stands : n.kind.column? = some column := by rw [kind]; rfl
    exact (places_of_mem_items (mem_items_of_node found root) stands).2 colon at'

/-- Entering a value is never refused. It leaves no caret only where there is neither a child nor a colon. -/
theorem enterValue_eq (d : Document) (i : Nat) (draft : Draft) :
    (∃ caret, Boundary d.text caret ∧ d.outline.enterValue d i draft = .ok (draft.placeCaret caret)) ∨
      d.outline.firstChild? i = none ∧ (d.outline.kindOf i).colon? = none ∧
        d.outline.enterValue d i draft = .ok draft := by
  unfold Outline.enterValue
  split
  next child j first => exact .inl ⟨child.start, boundary_firstChild first, rfl⟩
  next childless none => exact .inr ⟨childless, none, rfl⟩
  next colon none at' =>
    have char := charAt?_colon at'
    have behind : Boundary d.text (colon + 1) := boundary_add char
    refine .inl ⟨if d.charAt? (colon + 1) = some ' ' then colon + 2 else colon + 1, ?_, ?_⟩
    · split
      next blank => exact boundary_add blank
      next => exact behind
    · simp [charAt, char, bind, Except.bind, pure, Except.pure]

end Document

theorem Text.boundary_left {t a b : Text} (h : t = a ++ b) : Boundary t (bytes a) :=
  boundary_iff.mpr ⟨a, b, h, rfl⟩

theorem Text.eq_nil_of_bytes_append {a b : Text} (h : bytes a = bytes (a ++ b)) : b = [] := by
  have := length_le_bytes b
  rw [bytes_append] at h
  exact List.length_eq_zero_iff.mp (by omega)

theorem Text.exists_of_boundary_append {x y : Text} {n : Nat} (h : Boundary (x ++ y) n) (early : n ≤ bytes x) :
    ∃ a b, x = a ++ b ∧ bytes a = n := by
  obtain ⟨a, c, split, rfl⟩ := boundary_iff.mp h
  rcases List.append_eq_append_iff.mp split with ⟨b, rfl, -⟩ | ⟨b, rfl, -⟩
  · obtain rfl := eq_nil_of_bytes_append (show bytes x = bytes (x ++ b) by
      rw [bytes_append] at early ⊢
      omega)
    exact ⟨x, [], by simp, by simp⟩
  · exact ⟨a, b, rfl, rfl⟩

theorem Text.exists_of_boundary_behind {x y : Text} {n : Nat} (h : Boundary (x ++ y) n) (late : bytes x ≤ n) :
    ∃ b c, y = b ++ c ∧ bytes (x ++ b) = n := by
  obtain ⟨a, c, split, rfl⟩ := boundary_iff.mp h
  rcases List.append_eq_append_iff.mp split with ⟨b, rfl, rest⟩ | ⟨b, rfl, rest⟩
  · exact ⟨b, c, rest, rfl⟩
  · rw [bytes_append] at late
    obtain rfl := eq_nil_of_bytes_append (show bytes a = bytes (a ++ b) by rw [bytes_append]; omega)
    exact ⟨[], c, by simpa using rest.symm, by simp⟩

theorem Splice.apply_eq (s : Splice) {t a b c : Text} (text : t = a ++ b ++ c) (start : s.start = bytes a)
    (stop : s.stop = bytes (a ++ b)) : s.apply t = a ++ s.text ++ c := by
  rw [apply, start, stop]
  conv_lhs => arg 2; rw [text]
  rw [after_bytes_append, text, List.append_assoc a b, before_bytes_append]

namespace Draft

variable {d : Document} {n : Nat}

theorem apply_empty (d : Document) : Draft.empty.apply d = .ok (d, none) := by
  simp [apply, preview, empty, sorted, check, Splice.applyAll, bind, Except.bind, pure, Except.pure]

theorem apply_placeCaret (h : Boundary d.text n) :
    (Draft.empty.placeCaret n).apply d = .ok (d, some (.caret n)) := by
  simp [apply, preview, placeCaret, empty, sorted, check, Document.checkOffset, CaretHint.offset, h,
    Splice.applyAll, bind, Except.bind, pure, Except.pure]

theorem apply_insert (h : Boundary d.text n) (t : Text) :
    (Draft.empty.insert n t).apply d = .ok (⟨before d.text n ++ t ++ after d.text n⟩, some (.caret (n + bytes t))) := by
  simp [apply, preview, insert, empty, sorted, check, Document.checkOffset, CaretHint.offset, h, Splice.insertion,
    Splice.applyAll, Splice.apply, Splice.rebase, bind, Except.bind, pure, Except.pure]

theorem sorted_pair (a b : Splice) (caret : Option CaretHint) :
    (Draft.mk [a, b] caret).sorted = if a.le b then [a, b] else [b, a] := by
  have split : (Draft.mk [a, b] caret).sorted = List.merge [a] [b] Splice.le := by
    simp [sorted, List.mergeSort, List.MergeSort.Internal.splitInTwo]
  rw [split]
  by_cases h : a.le b <;> simp [h]

/-- A draft whose changes are checked leaves a caret if it places one. -/
theorem apply_of_sorted {draft : Draft} {splices : List Splice} {hint : CaretHint} (sorted : draft.sorted = splices)
    (checked : check d.text 0 splices = .ok ()) (caret : draft.caret = some hint)
    (boundary : Boundary d.text hint.offset) :
    ∃ selection, draft.apply d = .ok (⟨splices.foldr Splice.apply d.text⟩, some selection) := by
  have texts (splices : List Splice) (t : Text) (n : Nat) :
      (Splice.applyAll splices t n).1 = splices.foldr Splice.apply t := by
    induction splices with
    | nil => rfl
    | cons s splices ih => rw [List.foldr_cons, ← ih]; rfl
  refine ⟨.caret (Splice.applyAll splices d.text hint.offset).2, ?_⟩
  simp [apply, preview, sorted, checked, caret, Document.checkOffset, boundary, texts, bind, Except.bind, pure,
    Except.pure]

theorem check_cons {t : Text} {reached : Nat} {s : Splice} {rest : List Splice} (ordered : s.start ≤ s.stop)
    (start : Boundary t s.start) (stop : Boundary t s.stop) (later : reached ≤ s.start) :
    check t reached (s :: rest) = check t s.stop rest := by
  rw [check, if_neg (by simp [start, stop, ordered]), if_neg (Nat.not_lt.mpr later)]

theorem delete_of_ne {start stop : Nat} (h : start ≠ stop) :
    Draft.empty.delete start stop = ⟨[.deletion start stop], none⟩ := by
  rw [delete, if_neg h]
  rfl

variable {a b c word : Text} {start stop : Nat}

theorem apply_delete (text : d.text = a ++ word ++ c) (first : start = bytes a) (last : stop = bytes (a ++ word))
    (h : Boundary d.text n) :
    ∃ selection, ((Draft.empty.delete start stop).placeCaret n).apply d = .ok (⟨a ++ c⟩, some selection) := by
  by_cases same : start = stop
  · obtain rfl : word = [] := eq_nil_of_bytes_append (first.symm.trans (same.trans last))
    rw [delete, if_pos same, apply_placeCaret h]
    exact ⟨_, by rw [show d = ⟨a ++ c⟩ from congrArg Document.mk (by simpa using text)]⟩
  · have opens : Boundary d.text start := first ▸ boundary_left (text.trans (List.append_assoc _ _ _))
    have closes : Boundary d.text stop := last ▸ boundary_left text
    have ordered : start ≤ stop := by rw [first, last, bytes_append]; exact Nat.le_add_right _ _
    have cleared := Splice.apply_eq (.deletion start stop) text first last
    rw [delete_of_ne same]
    have applied := @apply_of_sorted d (Draft.mk [.deletion start stop] (some (.atOffset n))) _ _
      (List.mergeSort_singleton _) (check_cons ordered opens closes (Nat.zero_le _)) rfl h
    rwa [List.foldr_cons, List.foldr_nil, cleared, show (Splice.deletion start stop).text = [] from rfl,
      List.append_nil] at applied

theorem apply_insert_delete (text : d.text = a ++ b ++ word ++ c) (place : n = bytes a) (first : start = bytes (a ++ b))
    (last : stop = bytes (a ++ b ++ word)) (t : Text) :
    ∃ selection, ((Draft.empty.delete start stop).insert n t).apply d = .ok (⟨a ++ t ++ b ++ c⟩, some selection) := by
  have here : Boundary d.text n := place ▸ boundary_left (by rw [text, List.append_assoc, List.append_assoc])
  by_cases same : start = stop
  · obtain rfl : word = [] := eq_nil_of_bytes_append (first.symm.trans (same.trans last))
    rw [delete, if_pos same, apply_insert here]
    refine ⟨.caret (n + bytes t), ?_⟩
    have text : d.text = a ++ (b ++ c) := by simpa using text
    rw [text, place, before_bytes_append, after_bytes_append, ← List.append_assoc]
  · have opens : Boundary d.text start := first ▸ boundary_left (text.trans (List.append_assoc _ _ _))
    have closes : Boundary d.text stop := last ▸ boundary_left text
    have ordered : start ≤ stop := by rw [first, last, bytes_append (a ++ b)]; exact Nat.le_add_right _ _
    have later : n ≤ start := by rw [place, first, bytes_append]; exact Nat.le_add_right _ _
    have cleared := Splice.apply_eq (.deletion start stop) text first last
    have filled := Splice.apply_eq (t := a ++ b ++ [] ++ c) (.insertion n t)
      (show _ = a ++ [] ++ (b ++ c) by simp) place (by rw [List.append_nil]; exact place)
    have order : (Splice.deletion start stop).le (.insertion n t) = false := by
      have before : ¬start < n := Nat.not_lt.mpr later
      have behind : ¬stop ≤ n := by
        have : start < stop := Nat.lt_of_le_of_ne ordered same
        omega
      simp [Splice.le, Splice.deletion, Splice.insertion, before, behind]
    have sorted := sorted_pair (.deletion start stop) (.insertion n t) (some (.afterInsertion n))
    rw [order, if_neg Bool.false_ne_true] at sorted
    rw [delete_of_ne same]
    have applied := apply_of_sorted (d := d) sorted
      ((check_cons (Nat.le_refl n) here here (Nat.zero_le n)).trans (check_cons ordered opens closes later)) rfl here
    rw [List.foldr_cons, List.foldr_cons, List.foldr_nil, cleared,
      show (Splice.deletion start stop).text = [] from rfl, filled, ← List.append_assoc] at applied
    exact applied

theorem apply_delete_insert (text : d.text = a ++ word ++ b ++ c) (first : start = bytes a) (last : stop = bytes (a ++ word))
    (place : n = bytes (a ++ word ++ b)) (t : Text) :
    ∃ selection, ((Draft.empty.delete start stop).insert n t).apply d = .ok (⟨a ++ b ++ t ++ c⟩, some selection) := by
  have here : Boundary d.text n := place ▸ boundary_left text
  by_cases same : start = stop
  · obtain rfl : word = [] := eq_nil_of_bytes_append (first.symm.trans (same.trans last))
    rw [delete, if_pos same, apply_insert here]
    refine ⟨.caret (n + bytes t), ?_⟩
    rw [text, place, before_bytes_append, after_bytes_append, List.append_nil]
  · have opens : Boundary d.text start := first ▸ boundary_left (by rw [text, List.append_assoc, List.append_assoc])
    have closes : Boundary d.text stop := last ▸ boundary_left (text.trans (List.append_assoc _ _ _))
    have ordered : start ≤ stop := by rw [first, last, bytes_append]; exact Nat.le_add_right _ _
    have later : stop ≤ n := by rw [last, place, bytes_append (a ++ word)]; exact Nat.le_add_right _ _
    have filled := Splice.apply_eq (.insertion n t) (show d.text = a ++ word ++ b ++ [] ++ c by simp [text]) place
      (by rw [List.append_nil]; exact place)
    have cleared := Splice.apply_eq (t := a ++ word ++ b ++ t ++ c) (.deletion start stop)
      (show _ = a ++ word ++ (b ++ t ++ c) by simp) first last
    have order : (Splice.deletion start stop).le (.insertion n t) = true := by
      have before : start < n := Nat.lt_of_lt_of_le (Nat.lt_of_le_of_ne ordered same) later
      simp [Splice.le, Splice.deletion, Splice.insertion, before]
    have sorted := sorted_pair (.deletion start stop) (.insertion n t) (some (.afterInsertion n))
    rw [order, if_pos rfl] at sorted
    rw [delete_of_ne same]
    have applied := apply_of_sorted (d := d) sorted
      ((check_cons ordered opens closes (Nat.zero_le _)).trans (check_cons (Nat.le_refl n) here here later)) rfl here
    rw [List.foldr_cons, List.foldr_cons, List.foldr_nil, filled, show (Splice.insertion n t).text = t from rfl, cleared,
      show (Splice.deletion start stop).text = [] from rfl, List.append_nil, ← List.append_assoc, ← List.append_assoc]
      at applied
    exact applied

variable {x y : Text}

theorem apply_insert_before (text : d.text = x ++ word ++ y) (first : start = bytes x) (last : stop = bytes (x ++ word))
    (place : Boundary (x ++ y) n) (early : n ≤ bytes x) (t : Text) :
    ∃ selection, ((Draft.empty.delete start stop).insert n t).apply d =
      .ok (⟨before (x ++ y) n ++ t ++ after (x ++ y) n⟩, some selection) := by
  obtain ⟨a, b, rfl, rfl⟩ := exists_of_boundary_append place early
  rw [List.append_assoc a b y, before_bytes_append, after_bytes_append, ← List.append_assoc]
  exact apply_insert_delete text rfl first last t

theorem apply_insert_behind (text : d.text = x ++ word ++ y) (first : start = bytes x) (last : stop = bytes (x ++ word))
    (place : Boundary (x ++ y) n) (late : bytes x ≤ n) (t : Text) :
    ∃ selection, ((Draft.empty.delete start stop).insert (n + bytes word) t).apply d =
      .ok (⟨before (x ++ y) n ++ t ++ after (x ++ y) n⟩, some selection) := by
  obtain ⟨b, c, rfl, rfl⟩ := exists_of_boundary_behind place late
  rw [← List.append_assoc] at text
  rw [← List.append_assoc, before_bytes_append, after_bytes_append]
  exact apply_delete_insert text first last (by simp only [bytes_append]; omega) t

end Draft
end Offside
