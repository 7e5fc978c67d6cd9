import Offside.Document.Indent
import Offside.Proofs.Drafts

/-! Buffers: documents with a table of where their lines start. A place is looked up in the table and the text is cut at the
offsets found there, each time with the bounds checked, so that a lookup beyond them would be seen. None comes about, and
what is read is what the document says. -/
namespace Offside

open Text

/-- Why a program on a buffer stops: it refuses, or it has left the bounds of a text or a table. -/
inductive Fault where
  | refused (e : EditError)
  | outOfBounds
  deriving DecidableEq, Repr

namespace Fault

variable {α β : Type}

def lookUp (table : List α) (i : Nat) : Except Fault α :=
  match table[i]? with
  | some x => .ok x
  | none => .error .outOfBounds

theorem lookUp_eq {table : List α} {i : Nat} {x : α} (h : table[i]? = some x) : lookUp table i = .ok x := by
  rw [lookUp, h]

/-- What is refused stays refused for the same reason. -/
def lift (x : Except EditError α) : Except Fault α := x.mapError .refused

@[simp] theorem lift_ok (a : α) : lift (.ok a) = .ok a := rfl

@[simp] theorem lift_error (e : EditError) : (lift (.error e) : Except Fault α) = .error (.refused e) := rfl

theorem lift_bind (x : Except EditError α) (f : α → Except EditError β) :
    lift (x >>= f) = lift x >>= fun a => lift (f a) := by
  cases x <;> rfl

end Fault

open Fault

/-- Where the lines below a text that begins at `offset` start: behind its line feeds. -/
def Text.startsBehind (offset : Nat) : Text → List Nat
  | [] => []
  | c :: t => if c = '\n' then (offset + 1) :: startsBehind (offset + 1) t else startsBehind (offset + c.utf8Size) t

structure Buffer extends Document where
  /-- The offsets at which lines start. -/
  starts : List Nat
  deriving DecidableEq, Repr

namespace Buffer

def of (d : Document) : Buffer := ⟨d, 0 :: startsBehind 0 d.text⟩

def cut (b : Buffer) (start stop : Nat) : Except Fault Text :=
  if start ≤ stop ∧ Boundary b.text start ∧ Boundary b.text stop then .ok (b.slice start stop)
  else .error .outOfBounds

def byteIs (b : Buffer) (n : Nat) (c : Char) : Except Fault Bool :=
  if n < b.length then .ok (b.charAt? n == some c) else .error .outOfBounds

/-- The number of the last line that starts at `offset` or before. -/
def lineOf (b : Buffer) (offset : Nat) : Except Fault Nat := do
  lift (b.checkOffset offset)
  return b.starts.countP (· ≤ offset) - 1

/-- The content of a line that a line feed ends. A carriage return right before the line feed is left out. -/
def contentBefore (b : Buffer) (start feed : Nat) : Except Fault Span :=
  if start < feed then do
    return ⟨start, if ← b.byteIs (feed - 1) '\r' then feed - 1 else feed⟩
  else .ok ⟨start, feed⟩

def lineSpan (b : Buffer) (n : Nat) : Except Fault Span :=
  match b.starts[n]? with
  | none => .error (.refused (.badLine n b.starts.length))
  | some start =>
    match b.starts[n + 1]? with
    | none => .ok ⟨start, b.length⟩
    | some next => b.contentBefore start (next - 1)

def lineText (b : Buffer) (n : Nat) : Except Fault Text := do
  let span ← b.lineSpan n
  b.cut span.start span.stop

def indentation (b : Buffer) (n : Nat) : Except Fault (Option Nat) := do
  return Text.indentation (← b.lineText n)

/-- The text of a line up to an offset on it. -/
def lineBefore (b : Buffer) (offset : Nat) : Except Fault Text := do
  let span ← b.lineSpan (← b.lineOf offset)
  if span.start ≤ offset ∧ Boundary b.text span.start ∧ Boundary b.text offset then return b.slice span.start offset
  else .error (.refused (b.badLocation offset))

/-- The first line feed, with the carriage return that may come before it. -/
def lineBreak (b : Buffer) : Except Fault LineBreak :=
  if '\n' ∈ b.text then
    let feed := bytes (b.text.takeWhile (· != '\n'))
    if 0 < feed then do
      return if ← b.byteIs (feed - 1) '\r' then .crlf else .lf
    else .ok .lf
  else .ok .lf

end Buffer

variable {d : Document} {upper lower : List Line} {l : Line} {n offset : Nat}

namespace Text

theorem startsBehind_piece {piece : Text} (h : '\n' ∉ piece) (offset : Nat) : startsBehind offset piece = [] := by
  induction piece generalizing offset with
  | nil => rfl
  | cons c piece ih =>
    obtain ⟨other, rest⟩ := not_or.mp (List.mem_cons.not.mp h)
    rw [startsBehind, if_neg (Ne.symm other), ih rest]

theorem startsBehind_break {piece : Text} (h : '\n' ∉ piece) (offset : Nat) (rest : Text) :
    startsBehind offset (piece ++ '\n' :: rest) =
      (offset + bytes piece + 1) :: startsBehind (offset + bytes piece + 1) rest := by
  induction piece generalizing offset with
  | nil => rfl
  | cons c piece ih =>
    obtain ⟨other, none⟩ := not_or.mp (List.mem_cons.not.mp h)
    rw [List.cons_append, startsBehind, if_neg (Ne.symm other), ih none, bytes_cons, Nat.add_assoc offset]

theorem cons_startsBehind (t : Text) (offset : Nat) :
    offset :: startsBehind offset t = (Line.read offset t).map Line.start := by
  induction t using piece_induction generalizing offset with
  | last piece h => rw [startsBehind_piece h, Line.read_piece _ h, List.map_singleton]
  | step piece rest h ih =>
    rw [startsBehind_break h, Line.read_break _ _ h, List.map_cons, ← ih]
    congr 1
    rcases Line.ofTerminated_cases offset piece with ⟨-, eq⟩ | ⟨content, -, eq⟩ <;> rw [eq]

theorem lt_of_mem_startsBehind {t : Text} (h : n ∈ startsBehind offset t) : offset < n := by
  induction t generalizing offset with
  | nil => contradiction
  | cons c t ih =>
    have := c.utf8Size_pos
    rw [startsBehind] at h
    split at h
    · rcases List.mem_cons.mp h with rfl | later
      · omega
      · have := ih later
        omega
    · have := ih h
      omega

/-- The lines that start at a place or before are those that the line feeds before it end, and the one behind them. -/
theorem countP_startsBehind (t : Text) (offset n : Nat) :
    (startsBehind offset t).countP (· ≤ n) = (before t (n - offset)).count '\n' := by
  induction t generalizing offset with
  | nil => rfl
  | cons c t ih =>
    have := c.utf8Size_pos
    rw [before]
    by_cases within : c.utf8Size ≤ n - offset
    · have rest := ih (offset + c.utf8Size)
      rw [if_pos within, startsBehind, List.count_cons]
      rw [Nat.sub_add_eq] at rest
      by_cases feed : c = '\n'
      · subst feed
        rw [utf8Size_newline] at rest within ⊢
        rw [if_pos rfl, List.countP_cons_of_pos (by simp; omega), rest]
        rfl
      · rw [if_neg feed, rest]
        simp [feed]
    · rw [if_neg within, List.count_nil, List.countP_eq_zero]
      intro start member
      rw [startsBehind] at member
      have later : offset + c.utf8Size ≤ start := by
        split at member
        next feed =>
          subst feed
          rcases List.mem_cons.mp member with rfl | later
          · exact Nat.le_refl _
          · exact Nat.le_of_lt (lt_of_mem_startsBehind later)
        next => exact Nat.le_of_lt (lt_of_mem_startsBehind member)
      simp
      omega

end Text

namespace Buffer

theorem toDocument_of (d : Document) : (of d).toDocument = d := rfl

theorem starts_of (d : Document) : (of d).starts = d.lines.map Line.start := cons_startsBehind d.text 0

theorem cut_of {a b c : Text} (text : d.text = a ++ b ++ c) : (of d).cut (bytes a) (bytes (a ++ b)) = .ok b := by
  have start : Boundary (of d).text (bytes a) := boundary_left (text.trans (List.append_assoc _ _ _))
  have stop : Boundary (of d).text (bytes (a ++ b)) := boundary_left text
  rw [cut, if_pos ⟨by simp, start, stop⟩, Document.slice]
  show Except.ok (after (before d.text (bytes (a ++ b))) (bytes a)) = _
  rw [text, before_bytes_append, after_bytes_append]

theorem lineOf_of (d : Document) (offset : Nat) : (of d).lineOf offset = lift (d.lineOf offset) := by
  have count : (of d).starts.countP (· ≤ offset) - 1 = (before d.text offset).count '\n' := by
    rw [of, List.countP_cons_of_pos (by simp), countP_startsBehind]
    rfl
  rw [lineOf, Document.lineOf, lift_bind, count]
  rfl

theorem charAt?_sub_iff {c : Char} (boundary : Boundary d.text n) (le : c.utf8Size ≤ n) :
    d.charAt? (n - c.utf8Size) = some c ↔ (before d.text n).getLast? = some c := by
  constructor
  · intro found
    obtain ⟨early, first⟩ := Document.charAt?_eq_some_iff.mp found
    obtain ⟨rest, eq⟩ := List.head?_eq_some_iff.mp first
    have text : d.text = before d.text (n - c.utf8Size) ++ [c] ++ rest := by
      rw [List.append_assoc, List.singleton_append, ← eq, before_append_after]
    have place : bytes (before d.text (n - c.utf8Size) ++ [c]) = n := by
      rw [bytes_append, show bytes (before d.text (n - c.utf8Size)) = n - c.utf8Size from early]
      exact Nat.sub_add_cancel le
    have front := before_bytes_append (before d.text (n - c.utf8Size) ++ [c]) rest
    rw [← text, place] at front
    rw [front, List.getLast?_concat]
  · intro last
    obtain ⟨a, eq⟩ := List.getLast?_eq_some_iff.mp last
    have text : d.text = a ++ c :: after d.text n := by
      rw [← List.singleton_append, ← List.append_assoc, ← eq, before_append_after]
    have place : n - c.utf8Size = bytes a := by
      have : bytes (before d.text n) = n := boundary
      rw [eq, bytes_append] at this
      have : bytes [c] = c.utf8Size := rfl
      omega
    rw [place, Document.charAt?_eq_some_iff, text]
    exact ⟨boundary_left rfl, by rw [after_bytes_append]; rfl⟩

theorem le_length (boundary : Boundary d.text n) : n ≤ d.length := by
  have : bytes (before d.text n) + bytes (after d.text n) = d.length := by
    rw [← bytes_append, before_append_after, Document.length]
  have : bytes (before d.text n) = n := boundary
  omega

theorem byteIs_return (boundary : Boundary d.text n) (pos : 0 < n) :
    (of d).byteIs (n - 1) '\r' = .ok ((before d.text n).getLast? == some '\r') := by
  have within : n - 1 < (of d).length := by
    have := le_length boundary
    show n - 1 < d.length
    omega
  rw [byteIs, if_pos within]
  congr 1
  rw [Bool.eq_iff_iff, beq_iff_eq, beq_iff_eq]
  exact charAt?_sub_iff (c := '\r') boundary pos

theorem contentBefore_of {start feed : Nat} (boundary : Boundary d.text feed) : (of d).contentBefore start feed =
    .ok ⟨start, if start < feed ∧ (before d.text feed).getLast? = some '\r' then feed - 1 else feed⟩ := by
  rw [contentBefore]
  split
  next nonempty =>
    rw [byteIs_return boundary (by omega)]
    by_cases last : (before d.text feed).getLast? = some '\r' <;> simp [nonempty, last, bind, Except.bind, pure, Except.pure]
  next empty => simp [empty]

theorem head?_read (start : Nat) (t : Text) : (Line.read start t).head?.map Line.start = some start := by
  rw [← List.head?_map, ← cons_startsBehind]
  rfl

theorem lineSpan_split (split : d.lines = upper ++ l :: lower) :
    (of d).lineSpan upper.length = .ok ⟨l.start, l.stop⟩ := by
  obtain ⟨above, tail, cut⟩ := Document.exists_cut split
  have here : (of d).starts[upper.length]? = some l.start := by rw [starts_of, split]; simp
  have below : (of d).starts[upper.length + 1]? = lower.head?.map Line.start := by
    rw [starts_of, split, List.getElem?_map, List.getElem?_append_right (by omega), List.head?_eq_getElem?]
    simp
  have front := Document.before_stop cut
  have boundary := Document.boundary_stop cut
  have stop : l.stop = l.start + bytes l.content := rfl
  rw [lineSpan, here]
  dsimp only
  rw [below, cut.lower]
  match tail with
  | none =>
    have text : bytes (before d.text l.stop ++ after d.text l.stop) = l.stop := by
      rw [Document.after_stop cut, Line.Tail.text, List.append_nil]
      exact boundary
    rw [before_append_after] at text
    exact congrArg (fun stop => Except.ok (Span.mk l.start stop)) text
  | some (.lf, rest) =>
    have feed : l.stop + bytes LineBreak.lf.text - 1 = l.stop := rfl
    have other : ¬(l.start < l.stop ∧ (before d.text l.stop).getLast? = some '\r') := by
      rintro ⟨nonempty, last⟩
      rw [front, List.getLast?_append_of_ne_nil _ fun empty => by rw [stop, empty] at nonempty; simp at nonempty] at last
      exact cut.getLast?_content_ne split last
    rw [Line.Tail.lines, head?_read]
    dsimp only
    rw [feed, contentBefore_of boundary, if_neg other]
  | some (.crlf, rest) =>
    have feed : l.stop + bytes LineBreak.crlf.text - 1 = l.stop + 1 := rfl
    have text : d.text = above ++ l.content ++ ['\r'] ++ '\n' :: rest := by
      rw [cut.text]
      simp [Line.Tail.text, LineBreak.text]
    have place : l.stop + 1 = bytes (above ++ l.content ++ ['\r']) := by
      rw [bytes_append, ← front, show bytes (before d.text l.stop) = l.stop from boundary]
      rfl
    have last : (before d.text (l.stop + 1)).getLast? = some '\r' := by
      rw [place, text, before_bytes_append, List.getLast?_concat]
    rw [Line.Tail.lines, head?_read]
    dsimp only
    rw [feed, contentBefore_of (place ▸ boundary_left text), if_pos ⟨by omega, last⟩]
    rfl

theorem lineText_split (split : d.lines = upper ++ l :: lower) : (of d).lineText upper.length = .ok l.content := by
  obtain ⟨above, tail, cut⟩ := Document.exists_cut split
  rw [lineText, lineSpan_split split]
  show (of d).cut l.start l.stop = _
  rw [cut.stop_eq, cut.begins, Nat.zero_add]
  exact cut_of cut.text

theorem indentation_split (split : d.lines = upper ++ l :: lower) :
    (of d).indentation upper.length = .ok (Text.indentation l.content) := by
  rw [indentation, lineText_split split]
  rfl

theorem lineBefore_of (d : Document) (offset : Nat) : (of d).lineBefore offset = lift (d.lineBefore offset) := by
  rw [lineBefore, lineOf_of, Document.lineOf, Document.lineBefore]
  by_cases boundary : Boundary d.text offset
  · obtain ⟨upper, l, lower, above, tail, lead, split, cut, front, oneLine, -⟩ := d.exists_cut_at offset
    have text : d.text = above ++ lead ++ after d.text offset := by rw [← front, before_append_after]
    have start : l.start = bytes above := by rw [cut.begins, Nat.zero_add]
    have number : (before d.text offset).count '\n' = upper.length := by
      rw [front, List.count_append, cut.whole.breaks, List.count_eq_zero.mpr oneLine]
      rfl
    have place : bytes (above ++ lead) = offset := by rw [← front]; exact boundary
    have later : l.start ≤ offset := by
      rw [start, ← place, bytes_append]
      exact Nat.le_add_right _ _
    have opens : Boundary d.text l.start := start ▸ boundary_left (text.trans (List.append_assoc _ _ _))
    have slice : d.slice l.start offset = lead := by rw [Document.slice, front, start, after_bytes_append]
    have checked : d.checkOffset offset = .ok () := if_pos boundary
    have whole : lastPart (· == '\n') (before d.text offset) = lead := by rw [front, cut.whole.ended lead oneLine]
    rw [checked, number, whole]
    show (do
      let span ← (of d).lineSpan upper.length
      _ : Except Fault Text) = _
    rw [lineSpan_split split]
    show (if _ then _ else _) = _
    rw [if_pos ⟨later, opens, boundary⟩]
    exact congrArg Except.ok slice
  · have checked : d.checkOffset offset = .error (d.badLocation offset) := if_neg boundary
    rw [checked]
    rfl

theorem lineBreak_of (d : Document) : (of d).lineBreak = .ok d.lineBreak := by
  rw [lineBreak, toDocument_of, Document.lineBreak, Document.lines_eq]
  split
  next broken =>
    obtain ⟨piece, rest, text, none⟩ := List.eq_append_cons_of_mem broken
    have first : d.text.takeWhile (· != '\n') = piece := by
      rw [text, List.takeWhile_append_of_pos fun c member => by simp; rintro rfl; exact none member]
      simp
    have front : before d.text (bytes piece) = piece := by rw [text, before_bytes_append]
    have boundary : Boundary d.text (bytes piece) := boundary_left text
    have head : (Line.read 0 d.text).head? = some (Line.ofTerminated 0 piece) := by
      rw [text, Line.read_break _ _ none]
      rfl
    have ending : (Line.ofTerminated 0 piece).ending = if piece.getLast? = some '\r' then some .crlf else some .lf := by
      rw [Line.ofTerminated]
      split <;> rfl
    rw [first, head, Option.bind_some, ending]
    dsimp only
    split
    next nonempty =>
      rw [byteIs_return boundary nonempty, front]
      by_cases last : piece.getLast? = some '\r' <;> simp [last, bind, Except.bind, pure, Except.pure]
    next empty =>
      have nothing : piece = [] := eq_nil_of_bytes_append (a := []) (by simpa using (Nat.eq_zero_of_not_pos empty).symm)
      rw [nothing]
      rfl
  next whole =>
    rw [Line.read_piece _ whole]
    rfl

end Buffer
end Offside
