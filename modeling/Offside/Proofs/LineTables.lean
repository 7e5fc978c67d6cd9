import Mathlib.Data.List.TakeDrop
import Offside.Proofs.Commits

/-! Buffers that are edited in place, call after call. However often that happens and whatever is refused on the way, the
table has the starts of the lines that tile the text, and halving it finds the line of every place. -/
namespace Offside

open Text Fault

namespace Buffer

/-- Halves a part of an increasing table until one entry is left, the last one that is not beyond `x`. -/
def bisect (table : List Nat) (x base size : Nat) : Except Fault Nat :=
  if size ≤ 1 then .ok base
  else
    match lookUp table (base + size / 2) with
    | .error fault => .error fault
    | .ok entry =>
      if entry ≤ x then bisect table x (base + size / 2) (size - size / 2) else bisect table x base (size - size / 2)
termination_by size

inductive Place where
  | found (n : Nat)
  /-- The value is missing, and this is where it would have to be put. -/
  | absent (n : Nat)

def search (table : List Nat) (x : Nat) : Except Fault Place :=
  if table.isEmpty then .ok (.absent 0)
  else do
    let n ← bisect table x 0 table.length
    let entry ← lookUp table n
    return if entry = x then .found n else .absent (if entry < x then n + 1 else n)

def findLine (b : Buffer) (offset : Nat) : Except Fault Nat := do
  lift (b.checkOffset offset)
  match ← search b.starts offset with
  | .found n => return n
  | .absent n => return n - 1

/-- Line and column, the column in bytes. -/
def position (b : Buffer) (offset : Nat) : Except Fault (Nat × Nat) := do
  let n ← b.findLine offset
  let start ← lookUp b.starts n
  if start ≤ offset then return (n, offset - start) else .error .outOfBounds

/-- Puts `text` in the place of the `length` bytes from `offset` on. -/
def overwrite (offset length : UInt64) (text : Text) : EStateM Fault Buffer Unit := do
  let b ← get
  let stop := Document.reach offset.toNat length.toNat
  MonadExcept.ofExcept (lift (b.checkOffset offset.toNat))
  MonadExcept.ofExcept (lift (b.checkOffset stop))
  let whole ← MonadExcept.ofExcept (Splice.replaceIn ⟨offset.toNat, stop, text⟩ b.text)
  set (Buffer.of ⟨whole⟩)

inductive Edit where
  | insert (offset : UInt64) (text : Text)
  | replace (offset length : UInt64) (text : Text)
  | setText (text : Text)
  deriving DecidableEq

def Edit.apply (d : Document) : Edit → Except EditError Document
  | insert offset text => d.insert offset.toNat text
  | replace offset length text => d.replace offset.toNat length.toNat text
  | setText text => .ok ⟨text⟩

def Edit.perform : Edit → EStateM Fault Buffer Unit
  | insert offset text => overwrite offset 0 text
  | replace offset length text => overwrite offset length text
  | setText text => set (Buffer.of ⟨text⟩)

/-- The buffer after a number of edits, each made on what the ones before it have left, refused ones included. -/
def edited (b : Buffer) (edits : List Edit) : Buffer :=
  edits.foldl (fun b edit =>
    match edit.perform.run b with
    | .ok () b' => b'
    | .error _ b' => b') b

/-- Line `n` starts at `start`, not behind `offset`, and the next line starts behind it. -/
structure Holds (b : Buffer) (n start offset : Nat) : Prop where
  starts : b.starts[n]? = some start
  le : start ≤ offset
  next : ∀ later ∈ b.starts[n + 1]?, offset < later

/-- The table describes the text: its lines, each followed by its line break, are the text, and only the last line has
no line break. -/
structure Tiled (b : Buffer) (lines : List Line) : Prop where
  count : lines.length = b.starts.length
  whole : lines.flatMap Line.full = b.text
  line : ∀ n l, lines[n]? = some l → b.starts[n]? = some l.start ∧ b.lineText n = .ok l.content ∧ '\n' ∉ l.content ∧
    (l.ending = none ↔ n + 1 = lines.length)

/-- Every place in the text is found on its line, and any other offset is refused, by the document alike. -/
structure Located (b : Buffer) (offset : Nat) : Prop where
  inside : Boundary b.text offset → ∃ n start, b.Holds n start offset ∧ (∀ n' start', b.Holds n' start' offset → n' = n) ∧
    b.findLine offset = .ok n ∧ (∃ column, b.position offset = .ok (n, column) ∧ start + column = offset) ∧
    b.lineBefore offset = .ok (b.slice start offset)
  outside : ¬Boundary b.text offset → b.findLine offset = .error (.refused (b.badLocation offset)) ∧
    b.position offset = .error (.refused (b.badLocation offset)) ∧
    b.lineBefore offset = .error (.refused (b.badLocation offset))
  lineOf : b.findLine offset = lift (b.toDocument.lineOf offset)
  position : b.position offset = lift (b.toDocument.position offset)
  lineBefore : b.lineBefore offset = lift (b.toDocument.lineBefore offset)

end Buffer

theorem Fault.lookUp_eq_ok_iff {α : Type} {table : List α} {i : Nat} {x : α} : lookUp table i = .ok x ↔ table[i]? = some x := by
  rw [lookUp]
  cases table[i]? <;> simp

theorem Fault.lookUp_eq_error_iff {α : Type} {table : List α} {i : Nat} {fault : Fault} :
    lookUp table i = .error fault ↔ table.length ≤ i ∧ fault = .outOfBounds := by
  rw [← List.getElem?_eq_none_iff, lookUp]
  cases table[i]? <;> simp [eq_comm]

namespace Line

theorem flatMap_full (start : Nat) (t : Text) : (read start t).flatMap full = t := by
  induction t using piece_induction generalizing start with
  | last piece none => simp [read_piece _ none, full]
  | step piece rest none ih =>
    rw [read_break _ _ none, List.flatMap_cons, ih]
    rcases ofTerminated_cases start piece with ⟨-, eq⟩ | ⟨content, rfl, eq⟩ <;> simp [eq, full, LineBreak.text]

theorem ending_eq_none_iff {start n : Nat} {t : Text} {l : Line} (found : (read start t)[n]? = some l) :
    l.ending = none ↔ n + 1 = (read start t).length := by
  induction t using piece_induction generalizing start n with
  | last piece none =>
    rw [read_piece _ none] at found ⊢
    obtain ⟨rfl, rfl⟩ : n = 0 ∧ _ = l := by simpa [List.getElem?_singleton] using found
    simp
  | step piece rest none ih =>
    rw [read_break _ _ none] at found ⊢
    cases n with
    | zero =>
      obtain rfl : ofTerminated start piece = l := by simpa using found
      have more := read_ne_nil (start + bytes piece + 1) rest
      rcases ofTerminated_cases start piece with ⟨-, eq⟩ | ⟨content, -, eq⟩ <;> simp [eq, more]
    | succ n => simpa using ih (by simpa using found)

end Line

namespace Buffer

section Table

variable {b : Buffer} {table : List Nat} {x base size n n' start start' offset : Nat}

theorem le_of_getElem? (increasing : table.Pairwise (· < ·)) (first : table[n]? = some start)
    (later : table[n']? = some start') (le : n ≤ n') : start ≤ start' := by
  obtain ⟨inside, rfl⟩ := List.getElem?_eq_some_iff.mp first
  obtain ⟨inside', rfl⟩ := List.getElem?_eq_some_iff.mp later
  rcases Nat.lt_or_eq_of_le le with before | rfl
  · exact Nat.le_of_lt (List.pairwise_iff_getElem.mp increasing n n' inside inside' before)
  · exact Nat.le_refl _

theorem Holds.lt_of_lt (increasing : b.starts.Pairwise (· < ·)) (h : b.Holds n start offset)
    (later : b.starts[n']? = some start') (lt : n < n') : offset < start' := by
  obtain ⟨inside, -⟩ := List.getElem?_eq_some_iff.mp later
  have next := List.getElem?_eq_getElem (l := b.starts) (i := n + 1) (by omega)
  exact Nat.lt_of_lt_of_le (h.next _ next) (le_of_getElem? increasing next later lt)

theorem Holds.le_of_holds (increasing : b.starts.Pairwise (· < ·)) (h : b.Holds n start offset)
    (h' : b.Holds n' start' offset) : n' ≤ n := by
  by_contra later
  have beyond := h.lt_of_lt increasing h'.starts (Nat.lt_of_not_le later)
  exact Nat.lt_irrefl _ (Nat.lt_of_lt_of_le beyond h'.le)

theorem Holds.unique (increasing : b.starts.Pairwise (· < ·)) (h : b.Holds n start offset)
    (h' : b.Holds n' start' offset) : n' = n :=
  Nat.le_antisymm (h.le_of_holds increasing h') (h'.le_of_holds increasing h)

theorem Holds.lineOf (increasing : b.starts.Pairwise (· < ·)) (h : b.Holds n start offset)
    (boundary : Boundary b.text offset) : b.lineOf offset = .ok n := by
  obtain ⟨inside, -⟩ := List.getElem?_eq_some_iff.mp h.starts
  have early : (b.starts.take (n + 1)).countP (· ≤ offset) = n + 1 := by
    rw [List.countP_eq_length.mpr, List.length_take_of_le inside]
    intro entry member
    obtain ⟨m, there⟩ := List.mem_iff_getElem?.mp member
    obtain ⟨bound, there⟩ : m < n + 1 ∧ b.starts[m]? = some entry := by simpa [List.getElem?_take] using there
    have := le_of_getElem? increasing there h.starts (Nat.le_of_lt_succ bound)
    simpa using Nat.le_trans this h.le
  have late : (b.starts.drop (n + 1)).countP (· ≤ offset) = 0 := by
    rw [List.countP_eq_zero]
    intro entry member
    obtain ⟨m, there⟩ := List.mem_iff_getElem?.mp member
    rw [List.getElem?_drop] at there
    simpa using h.lt_of_lt increasing there (by omega)
  have checked : b.checkOffset offset = .ok () := if_pos boundary
  have count : b.starts.countP (· ≤ offset) = n + 1 := by
    rw [← List.take_append_drop (n + 1) b.starts, List.countP_append, early, late]
  rw [Buffer.lineOf, checked, count]
  rfl

/-- The first entry of the part is not beyond `x`, and all entries behind the part are. -/
theorem exists_bisect (increasing : table.Pairwise (· < ·)) (pos : 0 < size) (within : base + size ≤ table.length)
    (reached : ∀ entry ∈ table[base]?, entry ≤ x)
    (beyond : ∀ n entry, base + size ≤ n → table[n]? = some entry → x < entry) :
    ∃ n entry, bisect table x base size = .ok n ∧ table[n]? = some entry ∧ entry ≤ x ∧
      ∀ later ∈ table[n + 1]?, x < later := by
  fun_induction bisect table x base size with
  | case1 base size small =>
    have here := List.getElem?_eq_getElem (l := table) (i := base) (by omega)
    exact ⟨base, _, rfl, here, reached _ here, fun later next => beyond _ _ (by omega) next⟩
  | case2 base size large fault missing =>
    have outside := lookUp_eq_error_iff.mp missing
    omega
  | case3 base size large entry found left ih =>
    have middle := lookUp_eq_ok_iff.mp found
    refine ih (by omega) (by omega) (fun entry here => ?_) fun n entry later => beyond n entry (by omega)
    rwa [← Option.some.inj (middle.symm.trans here)]
  | case4 base size large entry found right ih =>
    have middle := lookUp_eq_ok_iff.mp found
    refine ih (by omega) (by omega) reached fun n entry later there => ?_
    have := le_of_getElem? increasing middle there (by omega)
    omega

/-- Whether or not a line starts at the offset, the search leads to the line that holds it. -/
theorem exists_findLine (increasing : b.starts.Pairwise (· < ·)) (first : b.starts[0]? = some 0)
    (boundary : Boundary b.text offset) : ∃ n start, b.Holds n start offset ∧ b.findLine offset = .ok n := by
  obtain ⟨inside, -⟩ := List.getElem?_eq_some_iff.mp first
  have whole : 0 + b.starts.length ≤ b.starts.length := by omega
  have reached : ∀ entry ∈ b.starts[0]?, entry ≤ offset := by
    intro entry zeroth
    obtain rfl := Option.some.inj (first.symm.trans zeroth)
    exact Nat.zero_le _
  have beyond (n entry : Nat) (behind : 0 + b.starts.length ≤ n) (there : b.starts[n]? = some entry) : offset < entry := by
    obtain ⟨inside', -⟩ := List.getElem?_eq_some_iff.mp there
    omega
  obtain ⟨n, start, halved, here, le, next⟩ := exists_bisect increasing inside whole reached beyond
  refine ⟨n, start, ⟨here, le, next⟩, ?_⟩
  have checked : b.checkOffset offset = .ok () := if_pos boundary
  have nonempty : b.starts.isEmpty = false := by
    cases starts : b.starts with
    | nil => simp [starts] at inside
    | cons => rfl
  rw [findLine, checked, search, nonempty, halved]
  simp only [lift_ok, Bool.false_eq_true, ↓reduceIte, bind, Except.bind, lookUp_eq here, pure, Except.pure]
  rcases Nat.lt_or_eq_of_le le with before | same
  · simp [before, Nat.ne_of_lt before]
  · simp [same]

theorem findLine_of_outside (outside : ¬Boundary b.text offset) :
    b.findLine offset = .error (.refused (b.badLocation offset)) := by
  have refused : b.checkOffset offset = .error (b.badLocation offset) := if_neg outside
  rw [findLine, refused]
  rfl

theorem position_of_outside (outside : ¬Boundary b.text offset) :
    b.position offset = .error (.refused (b.badLocation offset)) := by
  rw [position, findLine_of_outside outside]
  rfl

theorem Holds.position (h : b.Holds n start offset) (found : b.findLine offset = .ok n) :
    b.position offset = .ok (n, offset - start) := by
  rw [Buffer.position, found]
  simp [bind, Except.bind, lookUp_eq h.starts, h.le, pure, Except.pure]

end Table

variable {d : Document} {offset n start : Nat}

theorem increasing_starts (d : Document) : (of d).starts.Pairwise (· < ·) := by
  rw [starts_of, List.pairwise_map]
  refine (Line.read_pairwise 0 d.text).imp fun {a b} apart => ?_
  have : a.start ≤ a.stop := Nat.le_add_right _ _
  omega

theorem exists_split {l : Line} (found : d.lines[n]? = some l) :
    ∃ upper lower, d.lines = upper ++ l :: lower ∧ upper.length = n := by
  obtain ⟨inside, rfl⟩ := List.getElem?_eq_some_iff.mp found
  refine ⟨d.lines.take n, d.lines.drop (n + 1), ?_, List.length_take_of_le (Nat.le_of_lt inside)⟩
  rw [List.cons_getElem_drop_succ, List.take_append_drop]

theorem tiled_of (d : Document) : (of d).Tiled d.lines where
  count := by simp [starts_of]
  whole := Line.flatMap_full 0 d.text
  line n l found := by
    obtain ⟨upper, lower, split, rfl⟩ := exists_split found
    obtain ⟨above, tail, cut⟩ := Document.exists_cut split
    exact ⟨by simp [starts_of, found], lineText_split split, cut.oneLine, Line.ending_eq_none_iff found⟩

theorem Holds.exists_lead (h : (of d).Holds n start offset) (boundary : Boundary d.text offset) :
    ∃ lead, d.lineOf offset = .ok n ∧ d.lineBefore offset = .ok lead ∧ d.slice start offset = lead ∧
      bytes lead = offset - start := by
  obtain ⟨upper, l, lower, above, tail, lead, split, cut, front, oneLine, -⟩ := d.exists_cut_at offset
  have line := Document.lineOf_eq cut boundary front oneLine
  have counted := h.lineOf (increasing_starts d) boundary
  rw [lineOf_of, line] at counted
  obtain rfl : upper.length = n := Except.ok.inj counted
  have begins : start = bytes above := by
    have here := h.starts
    rw [starts_of, split] at here
    simpa [cut.begins, eq_comm] using here
  refine ⟨lead, line, Document.lineBefore_eq cut boundary front oneLine, ?_, ?_⟩
  · rw [Document.slice, front, begins, after_bytes_append]
  · have place : bytes (before d.text offset) = offset := boundary
    rw [front, bytes_append] at place
    omega

theorem located_of_boundary (boundary : Boundary d.text offset) : (of d).Located offset := by
  obtain ⟨n, start, holds, found⟩ := exists_findLine (increasing_starts d) rfl boundary
  obtain ⟨lead, line, front, slice, length⟩ := holds.exists_lead boundary
  have placed := holds.position found
  refine ⟨fun _ => ⟨n, start, holds, fun n' start' => holds.unique (increasing_starts d), found, ?_, ?_⟩,
    fun other => absurd boundary other, ?_, ?_, lineBefore_of d offset⟩
  · exact ⟨_, placed, Nat.add_sub_cancel' holds.le⟩
  · rw [lineBefore_of, front, ← slice]
    rfl
  · rw [found, toDocument_of, line, lift_ok]
  · rw [placed, toDocument_of, Document.position, line, front, ← length]
    rfl

theorem located_of_not_boundary (outside : ¬Boundary d.text offset) : (of d).Located offset := by
  have refused : d.checkOffset offset = .error (d.badLocation offset) := if_neg outside
  have line : d.lineOf offset = .error (d.badLocation offset) := by
    rw [Document.lineOf, refused]
    rfl
  have front : d.lineBefore offset = .error (d.badLocation offset) := by
    rw [Document.lineBefore, refused]
    rfl
  have found := findLine_of_outside (b := of d) outside
  have placed := position_of_outside (b := of d) outside
  refine ⟨fun inside => absurd inside outside, fun _ => ⟨found, placed, ?_⟩, ?_, ?_, lineBefore_of d offset⟩
  · rw [lineBefore_of, front]
    rfl
  · rw [found, toDocument_of, line]
    rfl
  · rw [placed, toDocument_of, Document.position, line]
    rfl

theorem located_of (d : Document) (offset : Nat) : (of d).Located offset := by
  by_cases boundary : Boundary d.text offset
  · exact located_of_boundary boundary
  · exact located_of_not_boundary boundary

theorem run_overwrite (d : Document) (offset length : UInt64) (text : Text) :
    (overwrite offset length text).run (of d) =
      match d.replace offset.toNat length.toNat text with
      | .ok d' => .ok () (of d')
      | .error e => .error (.refused e) (of d) := by
  have forward : offset.toNat ≤ Document.reach offset.toNat length.toNat := by
    have := offset.toNat_lt
    simp only [Document.reach, lastOffset, UInt64.size]
    omega
  generalize stop : Document.reach offset.toNat length.toNat = reached at forward
  have run : (overwrite offset length text).run (of d) =
      (do
        MonadExcept.ofExcept (lift (d.checkOffset offset.toNat))
        MonadExcept.ofExcept (lift (d.checkOffset reached))
        let whole ← MonadExcept.ofExcept (Splice.replaceIn ⟨offset.toNat, reached, text⟩ d.text)
        set (Buffer.of ⟨whole⟩) : EStateM Fault Buffer Unit).run (of d) := by
    rw [← stop]
    rfl
  rw [run, Document.replace, stop]
  by_cases opens : Boundary d.text offset.toNat
  · have checked : d.checkOffset offset.toNat = .ok () := if_pos opens
    by_cases closes : Boundary d.text reached
    · have checked' : d.checkOffset reached = .ok () := if_pos closes
      have made : Splice.replaceIn ⟨offset.toNat, reached, text⟩ d.text =
          .ok (before d.text offset.toNat ++ text ++ after d.text reached) := if_pos ⟨forward, opens, closes⟩
      simp only [run_read, checked, checked', made, lift_ok]
      rfl
    · have refused : d.checkOffset reached = .error (d.badLocation reached) := if_neg closes
      simp only [run_read, checked, refused, lift_ok, lift_error]
      rfl
  · have refused : d.checkOffset offset.toNat = .error (d.badLocation offset.toNat) := if_neg opens
    simp only [run_read, refused, lift_error]
    rfl

theorem run_perform (d : Document) (edit : Edit) : edit.perform.run (of d) =
    match edit.apply d with
    | .ok d' => .ok () (of d')
    | .error e => .error (.refused e) (of d) := by
  cases edit with
  | insert offset text => exact run_overwrite d offset 0 text
  | replace offset length text => exact run_overwrite d offset length text
  | setText text => rfl

/-- A buffer stays one that is made from its text. -/
theorem exists_edited (d : Document) (edits : List Edit) : ∃ d', (of d).edited edits = of d' := by
  induction edits generalizing d with
  | nil => exact ⟨d, rfl⟩
  | cons edit edits ih =>
    rw [edited, List.foldl_cons, run_perform]
    cases edit.apply d with
    | ok d' => exact ih d'
    | error e => exact ih d

/-- After any edits the table describes the text, every place is found on the one line that holds it, and a further edit
either makes of the buffer what it makes of the document or leaves it as it is. -/
theorem edited_describes (d : Document) (edits : List Edit) :
    let b := (of d).edited edits
    b.Tiled b.lines ∧ (∀ offset, b.Located offset) ∧ ∀ edit : Edit, edit.perform.run b =
      match edit.apply b.toDocument with
      | .ok d' => .ok () (of d')
      | .error e => .error (.refused e) b := by
  intro b
  obtain ⟨d', eq⟩ : ∃ d', b = of d' := exists_edited d edits
  rw [eq]
  exact ⟨tiled_of d', located_of d', run_perform d'⟩

end Buffer

end Offside
