import Offside.Proofs.BareDocuments

/-! Nothing of a document is lost when a path is made to exist: at most one block is put in, at the end of a line, and the
caret stands right behind it. No document, path or value is refused. -/
namespace Offside

open Text

/-- `block` is put into `d` at `offset`. -/
structure Document.Inserted (d d' : Document) (offset : Nat) (block : Text) : Prop where
  boundary : Boundary d.text offset
  text : d'.text = before d.text offset ++ block ++ after d.text offset

namespace Document

variable {d d' : Document} {offset base : Nat} {block key : Text} {path keys : KeyPath}

theorem Inserted.exists_split (h : d.Inserted d' offset block) :
    ∃ a b, d.text = a ++ b ∧ bytes a = offset ∧ d'.text = a ++ block ++ b := by
  obtain ⟨a, b, split, size⟩ := boundary_iff.mp h.boundary
  refine ⟨a, b, split, size, ?_⟩
  rw [h.text, split, ← size, before_bytes_append, after_bytes_append]

theorem Inserted.boundary_behind (h : d.Inserted d' offset block) : Boundary d'.text (offset + bytes block) := by
  obtain ⟨a, b, -, rfl, text⟩ := h.exists_split
  rw [← bytes_append]
  exact boundary_left text

theorem ensurePath_eq_of_missing (followed : d.outline.follow 0 path = (base, key :: keys)) (value : Text) :
    ∃ d' block, ∃ l ∈ d.lines, d.ensurePath path value = .ok (d', some (.caret (l.stop + bytes block))) ∧
      d.Inserted d' l.stop block := by
  by_cases bare : d.Bare
  · obtain ⟨rfl, rfl⟩ := Prod.mk.inj ((bare.follow 0 path).symm.trans followed)
    obtain ⟨upper, l, above, lines, cut, ends⟩ := exists_last_cut d
    have member : l ∈ d.lines := by simp [lines]
    exact ⟨_, _, l, member, bare.ensurePath_eq cut ends key keys value, boundary_stop cut, rfl⟩
  · obtain ⟨n, found, hosts⟩ := hosts_follow followed
    obtain ⟨upper, l, lower, ends⟩ := exists_blockEnds found hosts.isContainer (exists_written_of_not_bare bare)
    obtain ⟨above, tail, cut⟩ := exists_cut ends.split
    have member : l ∈ d.lines := by simp [ends.split]
    exact ⟨_, _, l, member, ends.ensurePath_eq found hosts.isContainer followed value, boundary_stop cut, rfl⟩

/-- The empty path of a bare document has no place for a caret. -/
theorem Bare.ensurePath_nil (bare : d.Bare) (value : Text) : d.ensurePath [] value = .ok (d, none) := by
  have entered : d.outline.enterValue d 0 .empty = .ok .empty := by
    have colon : (d.outline.kindOf 0).colon? = none := rfl
    simp [Outline.enterValue, bare.firstChild? 0, colon]
  have drafted : d.outline.grow d 0 [] value .empty = .ok .empty := entered
  rw [ensurePath, drafted]
  exact Draft.apply_empty d

theorem ensurePath_eq_of_present (followed : d.outline.follow 0 path = (base, [])) (value : Text) :
    (∃ caret, Boundary d.text caret ∧ d.ensurePath path value = .ok (d, some (.caret caret))) ∨
      d.ensurePath path value = .ok (d, none) ∧ path = [] ∧ d.Bare := by
  rcases ensurePath_cases followed value with placed | ⟨childless, colon, eq⟩
  · exact .inl placed
  · -- Without a colon the path ends at the root, and without a child that is all there is.
    have root : base = 0 := by
      rcases (Outline.le_follow followed).2 with root | ⟨n, name, found, named⟩
      · exact root
      · obtain ⟨x, place, kind⟩ := Kind.exists_key_of_name? named
        rw [Outline.kindOf_eq found, kind] at colon
        contradiction
    subst root
    have bare := firstChild?_root_eq_none_iff.mp childless
    exact .inr ⟨eq, (Prod.mk.inj ((bare.follow 0 path).symm.trans followed)).2, bare⟩

/-- `ensurePath` succeeds for every document, path and value. It leaves the document as it is if the path exists, and
otherwise it puts one block in at the end of a line and the caret behind that. A caret always stands at a boundary of the
new text, and only the empty path of a bare document leaves none. -/
theorem ensurePath_inserts (d : Document) (path : KeyPath) (value : Text) :
    ∃ d' selection, d.ensurePath path value = .ok (d', selection) ∧
      ((d.outline.follow 0 path).2 = [] ∧ d' = d ∨
        (d.outline.follow 0 path).2 ≠ [] ∧ ∃ l ∈ d.lines, ∃ block, d.Inserted d' l.stop block ∧
          selection = some (.caret (l.stop + bytes block))) ∧
      (∀ s ∈ selection, s.length = 0 ∧ Boundary d'.text s.offset) ∧
      (selection = none ↔ path = [] ∧ d.Bare) := by
  obtain ⟨⟨base, missing⟩, followed⟩ : ∃ p, d.outline.follow 0 path = p := ⟨_, rfl⟩
  cases missing with
  | nil =>
    rcases ensurePath_eq_of_present followed value with ⟨caret, boundary, eq⟩ | ⟨eq, empty, bare⟩
    · refine ⟨d, _, eq, .inl ⟨by rw [followed], rfl⟩, ?_, ?_⟩
      · rintro s ⟨⟩
        exact ⟨rfl, boundary⟩
      · constructor
        · intro none
          contradiction
        · rintro ⟨rfl, bare⟩
          rw [bare.ensurePath_nil value] at eq
          simp at eq
    · refine ⟨d, none, eq, .inl ⟨by rw [followed], rfl⟩, ?_, ?_⟩
      · rintro s ⟨⟩
      · simp [empty, bare]
  | cons key keys =>
    obtain ⟨d', block, l, member, eq, inserted⟩ := ensurePath_eq_of_missing followed value
    refine ⟨d', _, eq, .inr ⟨by simp [followed], l, member, block, inserted, rfl⟩, ?_, ?_⟩
    · rintro s ⟨⟩
      exact ⟨rfl, inserted.boundary_behind⟩
    · constructor
      · intro none
        contradiction
      · rintro ⟨rfl, -⟩
        simp [Outline.follow] at followed

end Document
end Offside
