import Offside.Proofs.GrownText

/-! Shifted texts. A text is its first line and the later ones, which line feeds set apart. A shift puts spaces in front of the
later lines and changes nothing else, so that it can be taken back, and two shifts are one by the sum of both. -/
namespace Offside.Text

variable {t u first : Text} {later : List Text} {n : Nat}

def firstLine (t : Text) : Text := (t.splitOn '\n').headD []

/-- What stands between two line feeds or behind the last of them. -/
def laterLines (t : Text) : List Text := (t.splitOn '\n').tail

/-- Takes `n` spaces from the start of every later line, if they all have them. -/
def unshiftLines? (t : Text) (n : Nat) : Option Text :=
  (t.laterLines.mapM (spaces n).isPrefixOf?).map fun later => ['\n'].intercalate (t.firstLine :: later)

theorem splitOn_newline (t : Text) : t.splitOn '\n' = t.firstLine :: t.laterLines := by
  obtain ⟨first, later, lines⟩ := List.exists_cons_of_ne_nil (List.splitOn_ne_nil '\n' t)
  simp [firstLine, laterLines, lines]

theorem intercalate_lines (t : Text) : ['\n'].intercalate (t.firstLine :: t.laterLines) = t := by
  rw [← splitOn_newline, List.intercalate_splitOn]

theorem newline_notMem (t : Text) : ∀ line ∈ t.firstLine :: t.laterLines, '\n' ∉ line := by
  rw [← splitOn_newline]
  exact fun line => notMem_of_mem_splitOn

theorem lines_intercalate (oneLine : ∀ line ∈ first :: later, '\n' ∉ line) :
    firstLine (['\n'].intercalate (first :: later)) = first ∧ laterLines (['\n'].intercalate (first :: later)) = later := by
  have lines := List.splitOn_intercalate '\n' oneLine (List.cons_ne_nil first later)
  rwa [splitOn_newline, List.cons_eq_cons] at lines

theorem ext_lines (first : t.firstLine = u.firstLine) (later : t.laterLines = u.laterLines) : t = u := by
  rw [← intercalate_lines t, first, later, intercalate_lines]

theorem count_newline (t : Text) : t.count '\n' = t.laterLines.length := by
  induction t using piece_induction with
  | last piece none =>
    rw [laterLines, List.splitOn_eq_singleton none, List.count_eq_zero.mpr none, List.tail_cons, List.length_nil]
  | step piece rest none ih =>
    rw [laterLines, List.splitOn_append_cons_self_of_not_mem none, List.tail_cons, splitOn_newline, List.length_cons, ← ih,
      List.count_append, List.count_cons_self, List.count_eq_zero.mpr none, Nat.zero_add]

/-- The end of a separator can as well be put in front of every list but the first. -/
theorem intercalate_append (a b first : Text) (later : List Text) :
    (a ++ b).intercalate (first :: later) = a.intercalate (first :: later.map (b ++ ·)) := by
  induction later generalizing first with
  | nil => rw [List.map_nil, List.intercalate_singleton, List.intercalate_singleton]
  | cons line later ih =>
    have front : a.intercalate ((b ++ line) :: later.map (b ++ ·)) = b ++ a.intercalate (line :: later.map (b ++ ·)) := by
      cases later <;> simp
    rw [List.map_cons, List.intercalate_cons_cons, List.intercalate_cons_cons, ih, front]
    simp only [List.append_assoc]

theorem shiftLines_eq_intercalate (t : Text) (n : Nat) : t.shiftLines n = ('\n' :: spaces n).intercalate (t.splitOn '\n') := by
  induction t using piece_induction with
  | last piece none => rw [shiftLines_of_notMem none, List.splitOn_eq_singleton none, List.intercalate_singleton]
  | step piece rest none ih =>
    rw [shiftLines_break rest n none, ih, List.splitOn_append_cons_self_of_not_mem none,
      List.intercalate_cons_of_ne_nil (List.splitOn_ne_nil '\n' rest), List.append_assoc, List.cons_append]

theorem shiftLines_eq_ite (t : Text) (n : Nat) :
    t.shiftLines n = if n = 0 ∨ '\n' ∉ t then t else ('\n' :: spaces n).intercalate (t.splitOn '\n') := by
  split
  next idle =>
    rcases idle with rfl | none
    · rw [shiftLines_eq_intercalate]
      exact List.intercalate_splitOn '\n'
    · exact shiftLines_of_notMem none n
  next => exact shiftLines_eq_intercalate t n

theorem shiftLines_eq (t : Text) (n : Nat) :
    t.shiftLines n = ['\n'].intercalate (t.firstLine :: t.laterLines.map (spaces n ++ ·)) := by
  rw [shiftLines_eq_intercalate, splitOn_newline]
  exact intercalate_append ['\n'] (spaces n) t.firstLine t.laterLines

theorem lines_shiftLines (t : Text) (n : Nat) :
    (t.shiftLines n).firstLine = t.firstLine ∧ (t.shiftLines n).laterLines = t.laterLines.map (spaces n ++ ·) := by
  rw [shiftLines_eq]
  refine lines_intercalate (List.forall_mem_cons.mpr ?_)
  obtain ⟨first, later⟩ := List.forall_mem_cons.mp (newline_notMem t)
  refine ⟨first, List.forall_mem_map.mpr fun line member => List.not_mem_append ?_ (later line member)⟩
  simp [spaces]

theorem count_shiftLines (t : Text) (n : Nat) : (t.shiftLines n).count '\n' = t.count '\n' := by
  rw [count_newline, count_newline, (lines_shiftLines t n).2, List.length_map]

theorem shiftLines_shiftLines (t : Text) (a b : Nat) : (t.shiftLines a).shiftLines b = t.shiftLines (a + b) := by
  obtain ⟨first, later⟩ := lines_shiftLines t a
  obtain ⟨first', later'⟩ := lines_shiftLines (t.shiftLines a) b
  obtain ⟨firstBoth, laterBoth⟩ := lines_shiftLines t (a + b)
  have both (line : Text) : spaces b ++ (spaces a ++ line) = spaces (a + b) ++ line := by
    rw [← List.append_assoc, spaces, spaces, List.replicate_append_replicate, Nat.add_comm, spaces]
  refine ext_lines (by rw [first', first, firstBoth]) ?_
  rw [later', later, laterBoth, List.map_map]
  exact List.map_congr_left fun line _ => both line

theorem mapM_isPrefixOf?_eq_some_iff (start : Text) {lines rests : List Text} :
    lines.mapM start.isPrefixOf? = some rests ↔ lines = rests.map (start ++ ·) := by
  induction lines generalizing rests with
  | nil => cases rests <;> simp
  | cons line lines ih =>
    simp only [List.mapM_cons, Option.bind_eq_bind, Option.bind_eq_some_iff, List.isPrefixOf?_eq_some_iff_append_eq, ih]
    cases rests <;> simp [eq_comm]

/-- The spaces can be taken from a shifted text alone, and then the text comes back. -/
theorem unshiftLines?_eq_some_iff : u.unshiftLines? n = some t ↔ u = t.shiftLines n := by
  simp only [unshiftLines?, Option.map_eq_some_iff, mapM_isPrefixOf?_eq_some_iff]
  constructor
  · rintro ⟨later, shifted, rfl⟩
    obtain ⟨first, lines⟩ := List.forall_mem_cons.mp (newline_notMem u)
    -- What is left of a line has no line feed either, so the lines are cut again where they were joined.
    have oneLine : ∀ line ∈ u.firstLine :: later, '\n' ∉ line := by
      refine List.forall_mem_cons.mpr ⟨first, fun line member inside => ?_⟩
      exact lines _ (shifted ▸ List.mem_map_of_mem member) (List.mem_append_right _ inside)
    rw [shiftLines_eq, (lines_intercalate oneLine).1, (lines_intercalate oneLine).2, ← shifted, intercalate_lines]
  · rintro rfl
    obtain ⟨first, later⟩ := lines_shiftLines t n
    exact ⟨t.laterLines, later, by rw [first, intercalate_lines]⟩

/-- A shift leaves the text if there is nothing to do, and else joins its lines with spaces behind the line feeds. Either way it
keeps the number of line feeds and the first line, and the later lines have exactly the spaces in front. It is taken back by taking
these away, and a second shift adds to it. -/
theorem shiftLines_reversible (t u : Text) (a b : Nat) :
    t.shiftLines a = (if a = 0 ∨ '\n' ∉ t then t else ('\n' :: spaces a).intercalate (t.splitOn '\n')) ∧
    (t.shiftLines a).count '\n' = t.count '\n' ∧
    (t.shiftLines a).firstLine = t.firstLine ∧
    (t.shiftLines a).laterLines = t.laterLines.map (spaces a ++ ·) ∧
    (u.unshiftLines? a = some t ↔ u = t.shiftLines a) ∧
    (t.shiftLines a).shiftLines b = t.shiftLines (a + b) :=
  ⟨shiftLines_eq_ite t a, count_shiftLines t a, (lines_shiftLines t a).1, (lines_shiftLines t a).2, unshiftLines?_eq_some_iff,
    shiftLines_shiftLines t a b⟩

example : shiftLines "\n\na\n".toList 2 = "\n  \n  a\n  ".toList ∧ unshiftLines? "\n  \n a".toList 2 = none := by decide

end Offside.Text
