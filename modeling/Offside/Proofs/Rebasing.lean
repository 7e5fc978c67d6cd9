import Offside.Proofs.Drafts

/-! Carets that are taken along. Replacements that were checked leave a caret between two characters of the text that they
make, wherever it stood before. -/
namespace Offside

open Text

theorem Splice.boundary_rebase {s : Splice} {a b c : Text} {caret : Nat} (start : s.start = bytes a)
    (stop : s.stop = bytes (a ++ b)) (place : Boundary (a ++ b ++ c) caret) :
    Boundary (a ++ s.text ++ c) (s.rebase caret) := by
  unfold rebase
  split
  next behind =>
    obtain ⟨x, y, rfl, rfl⟩ := exists_of_boundary_behind place (stop ▸ behind)
    have moved : bytes (a ++ b ++ x) + bytes s.text - (s.stop - s.start) = bytes (a ++ s.text ++ x) := by
      simp only [start, stop, bytes_append]
      omega
    rw [moved]
    exact boundary_left (List.append_assoc _ x y).symm
  next =>
    split
    next => exact start ▸ boundary_left (List.append_assoc a _ c)
    next outside =>
      rw [List.append_assoc] at place
      obtain ⟨x, y, rfl, rfl⟩ := exists_of_boundary_append place (start ▸ Nat.le_of_not_lt outside)
      have text : x ++ y ++ s.text ++ c = x ++ (y ++ s.text ++ c) := by simp only [List.append_assoc]
      exact boundary_left text

/-- Checked replacements leave what comes before the first of them, and they take a boundary along to a boundary. -/
theorem Splice.applyAll_of_check {t : Text} {reached caret : Nat} {splices : List Splice}
    (checked : Draft.check t reached splices = .ok ()) (begins : Boundary t reached) (place : Boundary t caret) :
    (∃ rest, (applyAll splices t caret).1 = before t reached ++ rest) ∧
      Boundary (applyAll splices t caret).1 (applyAll splices t caret).2 := by
  induction splices generalizing reached with
  | nil => exact ⟨⟨after t reached, (before_append_after t reached).symm⟩, place⟩
  | cons s splices ih =>
    rw [Draft.check] at checked
    split at checked
    · contradiction
    next valid =>
      split at checked
      · contradiction
      next later =>
        simp only [not_or, Decidable.not_not, Nat.not_lt] at valid later
        obtain ⟨ordered, opens, closes⟩ := valid
        obtain ⟨⟨rest, kept⟩, boundary⟩ := ih checked closes
        have step : applyAll (s :: splices) t caret =
            (s.apply (applyAll splices t caret).1, s.rebase (applyAll splices t caret).2) := rfl
        obtain ⟨x, c, text, stop⟩ := boundary_iff.mp closes
        have upTo : before t s.stop = x := by rw [← stop, text, before_bytes_append]
        rw [upTo] at kept
        rw [text] at opens
        obtain ⟨a, b, rfl, start⟩ := exists_of_boundary_append opens (stop ▸ ordered)
        rw [text, List.append_assoc] at begins
        obtain ⟨early, mid, rfl, reached'⟩ := exists_of_boundary_append begins (start ▸ later)
        have first : before t reached = early := by
          rw [text, ← reached', List.append_assoc, List.append_assoc, before_bytes_append]
        rw [step, kept, apply_eq s rfl start.symm stop.symm, first]
        rw [kept] at boundary
        constructor
        · exact ⟨mid ++ s.text ++ rest, by simp only [List.append_assoc]⟩
        · exact boundary_rebase start.symm stop.symm boundary

theorem Draft.boundary_of_apply {draft : Draft} {d d' : Document} {selection : Selection}
    (applied : draft.apply d = .ok (d', some selection)) :
    selection.length = 0 ∧ Boundary d'.text selection.offset := by
  unfold apply preview at applied
  cases checked : check d.text 0 draft.sorted with
  | error => simp [checked, bind, Except.bind] at applied
  | ok =>
    cases caret : draft.caret with
    | none => simp [checked, caret, bind, Except.bind, pure, Except.pure] at applied
    | some hint =>
      by_cases place : Boundary d.text hint.offset
      · simp only [bind, Except.bind, checked, caret, Document.checkOffset, place, ↓reduceIte, pure, Except.pure,
          Option.map_some, Except.ok.injEq, Prod.mk.injEq, Option.some.injEq] at applied
        obtain ⟨rfl, rfl⟩ := applied
        have begins : Boundary d.text 0 := boundary_left (List.nil_append d.text).symm
        exact ⟨rfl, (Splice.applyAll_of_check checked begins place).2⟩
      · simp [checked, caret, Document.checkOffset, place, bind, Except.bind] at applied

end Offside
