import Offside.Document.Basic
import Offside.Proofs.LastParts

/-! Lines read off a text piece by piece. The text above a line and the tail behind its content are kept apart,
so that a change within one line leaves the lines above as they are and only moves those below. -/
namespace Offside

open Text

@[simp] theorem Text.bytes_nil : bytes [] = 0 := rfl

@[simp] theorem Text.bytes_cons (c : Char) (t : Text) : bytes (c :: t) = c.utf8Size + bytes t := rfl

@[simp] theorem Text.utf8Size_newline : ('\n' : Char).utf8Size = 1 := rfl

@[simp] theorem Text.utf8Size_return : ('\r' : Char).utf8Size = 1 := rfl

@[simp] theorem Text.utf8Size_space : (' ' : Char).utf8Size = 1 := rfl

@[simp] theorem Text.utf8Size_colon : (':' : Char).utf8Size = 1 := rfl

@[simp] theorem Text.bytes_spaces (n : Nat) : bytes (spaces n) = n := by
  induction n with
  | zero => rfl
  | succ n ih => rw [spaces, List.replicate_succ, bytes_cons, utf8Size_space, ← spaces, ih, Nat.add_comm]

theorem Text.append_inj_of_bytes {a b x y : Text} (h : a ++ x = b ++ y) (same : bytes a = bytes b) : a = b ∧ x = y := by
  have start := before_bytes_append a x
  rw [h, same, before_bytes_append] at start
  subst start
  exact ⟨rfl, List.append_cancel_left h⟩

theorem Text.forall_split_cons {x c : Char} {t : Text} {p : Text → Text → Prop} :
    (∀ a b, x :: t = a ++ c :: b → p a b) ↔ (x = c → p [] t) ∧ ∀ a b, t = a ++ c :: b → p (x :: a) b := by
  constructor
  · intro splits
    exact ⟨fun same => splits [] t (by rw [same]; rfl), fun a b split => splits (x :: a) b (by rw [split]; rfl)⟩
  · rintro ⟨first, later⟩ a b split
    cases a with
    | nil =>
      obtain ⟨rfl, rfl⟩ := List.cons_eq_cons.mp split
      exact first rfl
    | cons y a =>
      obtain ⟨rfl, rest⟩ := List.cons_eq_cons.mp split
      exact later a b rest

theorem Text.forall_split_iff {t : Text} {c : Char} {p : Text → Text → Prop} :
    (∀ a b, t = a ++ c :: b → p a b) ↔ ∀ n < t.length, t[n]? = some c → p (t.take n) (t.drop (n + 1)) := by
  constructor
  · intro splits n bound here
    have at' : t[n] = c := Option.some.inj ((List.getElem?_eq_getElem bound).symm.trans here)
    have cut : t = t.take n ++ c :: t.drop (n + 1) := by
      rw [← at', ← List.drop_eq_getElem_cons bound, List.take_append_drop]
    exact splits _ _ cut
  · rintro places a b rfl
    have here := places a.length (by simp) (by simp)
    simpa [List.drop_append, List.drop_eq_nil_of_le] using here

instance {t : Text} {c : Char} {p : Text → Text → Prop} [∀ a b, Decidable (p a b)] :
    Decidable (∀ a b, t = a ++ c :: b → p a b) :=
  decidable_of_iff _ Text.forall_split_iff.symm

/-- Every text is a last piece, or a piece that a line feed ends before more text. -/
@[elab_as_elim] theorem Text.piece_induction {motive : Text → Prop} (t : Text)
    (last : ∀ piece, '\n' ∉ piece → motive piece)
    (step : ∀ piece rest, '\n' ∉ piece → motive rest → motive (piece ++ '\n' :: rest)) : motive t := by
  induction h : t.count '\n' generalizing t with
  | zero => exact last t (List.count_eq_zero.mp h)
  | succ n ih =>
    have member : '\n' ∈ t := List.count_pos_iff.mp (by omega)
    obtain ⟨piece, rest, rfl, none⟩ := List.eq_append_cons_of_mem member
    exact step piece rest none (ih rest (by simpa [List.count_eq_zero.mpr none] using h))

theorem Text.notMem_of_mem_splitOn {c : Char} {t piece : Text} (member : piece ∈ t.splitOn c) : c ∉ piece := by
  induction t generalizing piece with
  | nil =>
    obtain rfl : piece = [] := by simpa using member
    exact List.not_mem_nil
  | cons x t ih =>
    rw [List.splitOn_cons_eq_if_modifyHead] at member
    split at member
    · rcases List.mem_cons.mp member with rfl | later
      · exact List.not_mem_nil
      · exact ih later
    next other =>
      obtain ⟨first, rest, pieces⟩ := List.exists_cons_of_ne_nil (List.splitOn_ne_nil c t)
      rw [pieces] at ih member
      rcases List.mem_cons.mp member with rfl | later
      · have apart : c ≠ x := by
          rintro rfl
          exact other (beq_self_eq_true c)
        simp [apart, ih List.mem_cons_self]
      · exact ih (List.mem_cons_of_mem _ later)

namespace Line

def read (start : Nat) (t : Text) : List Line := lay start (t.splitOn '\n')

def shift (k : Nat) (l : Line) : Line := { l with start := l.start + k }

theorem read_piece {piece : Text} (start : Nat) (h : '\n' ∉ piece) :
    read start piece = [⟨start, piece, none⟩] := by
  rw [read, List.splitOn_eq_singleton h, lay]

theorem read_break {piece : Text} (start : Nat) (rest : Text) (h : '\n' ∉ piece) :
    read start (piece ++ '\n' :: rest) =
      ofTerminated start piece :: read (start + bytes piece + 1) rest := by
  rw [read, List.splitOn_append_cons_self_of_not_mem h]
  cases pieces : rest.splitOn '\n' with
  | nil => exact absurd pieces (List.splitOn_ne_nil _ _)
  | cons => rw [lay, read, pieces]; simp

theorem ofTerminated_of_getLast? {piece : Text} (start : Nat) (h : piece.getLast? ≠ some '\r') :
    ofTerminated start piece = ⟨start, piece, some .lf⟩ := by
  rw [ofTerminated, if_neg h]

theorem ofTerminated_return (start : Nat) (piece : Text) :
    ofTerminated start (piece ++ ['\r']) = ⟨start, piece, some .crlf⟩ := by
  simp [ofTerminated]

theorem ofTerminated_cases (start : Nat) (piece : Text) :
    (piece.getLast? ≠ some '\r' ∧ ofTerminated start piece = ⟨start, piece, some .lf⟩) ∨
      ∃ content, piece = content ++ ['\r'] ∧ ofTerminated start piece = ⟨start, content, some .crlf⟩ := by
  by_cases h : piece.getLast? = some '\r'
  · obtain ⟨content, rfl⟩ := List.getLast?_eq_some_iff.mp h
    exact .inr ⟨content, rfl, ofTerminated_return start content⟩
  · exact .inl ⟨h, ofTerminated_of_getLast? start h⟩

theorem ofTerminated_add (start k : Nat) (piece : Text) :
    ofTerminated (start + k) piece = (ofTerminated start piece).shift k := by
  unfold ofTerminated
  split <;> rfl

theorem read_ne_nil (start : Nat) (t : Text) : read start t ≠ [] := by
  induction t using piece_induction with
  | last piece h => simp [read_piece _ h]
  | step piece rest h => simp [read_break _ _ h]

theorem read_add (start k : Nat) (t : Text) : read (start + k) t = (read start t).map (shift k) := by
  induction t using piece_induction generalizing start with
  | last piece h => simp [read_piece _ h, shift]
  | step piece rest h ih =>
    rw [read_break _ _ h, read_break _ _ h, List.map_cons, ← ih, ofTerminated_add]
    congr 2
    omega

theorem read_bounds {start : Nat} {t : Text} {l : Line} (member : l ∈ read start t) :
    start ≤ l.start ∧ l.stop ≤ start + bytes t := by
  induction t using piece_induction generalizing start with
  | last piece h =>
    obtain rfl : l = ⟨start, piece, none⟩ := by simpa [read_piece _ h] using member
    exact ⟨Nat.le_refl _, Nat.le_refl _⟩
  | step piece rest h ih =>
    rw [read_break _ _ h] at member
    rcases List.mem_cons.mp member with rfl | member
    · rcases ofTerminated_cases start piece with ⟨-, eq⟩ | ⟨content, rfl, eq⟩ <;>
        simp [eq, stop, length]
    · have := ih member
      simp only [bytes_append, bytes_cons, utf8Size_newline]
      omega

theorem read_pairwise (start : Nat) (t : Text) : (read start t).Pairwise fun a b => a.stop < b.start := by
  induction t using piece_induction generalizing start with
  | last piece h => simp [read_piece _ h]
  | step piece rest h ih =>
    rw [read_break _ _ h]
    refine List.pairwise_cons.mpr ⟨fun l member => ?_, ih _⟩
    have below := (read_bounds member).1
    rcases ofTerminated_cases start piece with ⟨-, eq⟩ | ⟨content, rfl, eq⟩ <;>
      simp [eq, stop, length] at below ⊢ <;> omega

/-- What follows the content of a line: its break with the text of the lines below it, or nothing. -/
abbrev Tail := Option (LineBreak × Text)

namespace Tail

def text : Tail → Text
  | none => []
  | some (b, rest) => b.text ++ rest

/-- The lines below a line whose content ends at `stop`. -/
def lines (stop : Nat) : Tail → List Line
  | none => []
  | some (b, rest) => read (stop + bytes b.text) rest

theorem lines_add (stop k : Nat) (tail : Tail) :
    tail.lines (stop + k) = (tail.lines stop).map (shift k) := by
  match tail with
  | none => rfl
  | some (b, rest) => rw [lines, lines, ← read_add]; congr 1; omega

end Tail

/-- The last line before a tail. A carriage return joins a line feed that comes first in the tail. -/
theorem read_tail {piece : Text} (start : Nat) (tail : Tail) (h : '\n' ∉ piece) :
    ∃ content, (piece = content ∨ piece = content ++ ['\r']) ∧
      (piece.getLast? ≠ some '\r' → content = piece) ∧
      ∃ ending, read start (piece ++ tail.text) = ⟨start, content, ending⟩ :: tail.lines (start + bytes piece) := by
  match tail with
  | none => exact ⟨piece, .inl rfl, fun _ => rfl, none, by simp [Tail.text, Tail.lines, read_piece _ h]⟩
  | some (.lf, rest) =>
    have broken := read_break start rest h
    rcases ofTerminated_cases start piece with ⟨last, eq⟩ | ⟨content, rfl, eq⟩
    · exact ⟨piece, .inl rfl, fun _ => rfl, some .lf, by rw [← eq]; exact broken⟩
    · refine ⟨content, .inr rfl, fun last => absurd ?_ last, some .crlf, by rw [← eq]; exact broken⟩
      simp
  | some (.crlf, rest) =>
    have none : '\n' ∉ piece ++ ['\r'] := by simpa using h
    have broken := read_break start rest none
    rw [ofTerminated_return] at broken
    refine ⟨piece, .inl rfl, fun _ => rfl, some .crlf, ?_⟩
    simpa [Tail.text, Tail.lines, LineBreak.text, Nat.add_assoc] using broken

/-- The text of lines that all are ended, from `start` on. -/
structure Above (start : Nat) (above : Text) (lines : List Line) : Prop where
  reads : ∀ t, read start (above ++ t) = lines ++ read (start + bytes above) t
  breaks : above.count '\n' = lines.length
  ended : ∀ piece, '\n' ∉ piece → lastPart (· == '\n') (above ++ piece) = piece

theorem above_nil (start : Nat) : Above start [] [] :=
  ⟨by simp, rfl, fun _ h => lastPart_of_notMem h⟩

theorem Above.cons {start : Nat} {piece above : Text} {lines : List Line} (h : '\n' ∉ piece)
    (valid : Above (start + bytes piece + 1) above lines) :
    Above start (piece ++ '\n' :: above) (ofTerminated start piece :: lines) where
  reads t := by
    rw [List.append_assoc, List.cons_append, read_break _ _ h, valid.reads]
    simp [Nat.add_assoc]
  breaks := by simp [valid.breaks, List.count_eq_zero.mpr h]
  ended p none := by rw [List.append_assoc, List.cons_append, lastPart_break, valid.ended p none]

theorem Above.eq_nil {start : Nat} {above : Text} (h : Above start above []) : above = [] := by
  have none : '\n' ∉ above := List.count_eq_zero.mp h.breaks
  rw [← lastPart_of_notMem none, ← List.append_nil above]
  exact h.ended [] (by simp)

theorem exists_above (start : Nat) (t : Text) :
    ∃ above piece lines, t = above ++ piece ∧ '\n' ∉ piece ∧ Above start above lines := by
  induction t using piece_induction generalizing start with
  | last piece h => exact ⟨[], piece, [], rfl, h, above_nil start⟩
  | step piece rest h ih =>
    obtain ⟨above, last, lines, rfl, none, valid⟩ := ih (start + bytes piece + 1)
    exact ⟨piece ++ '\n' :: above, last, _, by simp, none, valid.cons h⟩

structure Cut (start : Nat) (t : Text) (upper : List Line) (l : Line) (lower : List Line)
    (above : Text) (tail : Tail) : Prop where
  text : t = above ++ l.content ++ tail.text
  whole : Above start above upper
  begins : l.start = start + bytes above
  oneLine : '\n' ∉ l.content
  lower : lower = tail.lines l.stop

theorem exists_cut {start : Nat} {t : Text} {upper lower : List Line} {l : Line}
    (h : read start t = upper ++ l :: lower) : ∃ above tail, Cut start t upper l lower above tail := by
  induction t using piece_induction generalizing start upper with
  | last piece none =>
    rw [read_piece _ none] at h
    obtain ⟨rfl, single⟩ := List.append_eq_singleton_iff.mp h.symm |>.resolve_right (by simp)
    obtain ⟨rfl, rfl⟩ := List.cons_eq_cons.mp single
    exact ⟨[], .none, by simp [Tail.text], above_nil _, rfl, none, rfl⟩
  | step piece rest none ih =>
    rw [read_break _ _ none] at h
    cases upper with
    | nil =>
      obtain ⟨rfl, rfl⟩ := List.cons_eq_cons.mp h
      rcases ofTerminated_cases start piece with ⟨-, eq⟩ | ⟨content, rfl, eq⟩
      · exact ⟨[], some (.lf, rest), by simp [eq, Tail.text, LineBreak.text], above_nil _, by simp [eq],
          by simpa [eq] using none, by simp [eq, stop, length, Tail.lines, LineBreak.text]⟩
      · exact ⟨[], some (.crlf, rest), by simp [eq, Tail.text, LineBreak.text], above_nil _, by simp [eq],
          by simpa [eq] using none, by simp [eq, stop, length, Tail.lines, LineBreak.text, Nat.add_assoc]⟩
    | cons first upper =>
      obtain ⟨rfl, later⟩ := List.cons_eq_cons.mp h
      obtain ⟨above, tail, cut⟩ := ih later
      refine ⟨piece ++ '\n' :: above, tail, ?_, cut.whole.cons none, ?_, cut.oneLine, cut.lower⟩
      · rw [cut.text]; simp
      · rw [cut.begins]; simp; omega

theorem Cut.stop_eq {t above : Text} {upper lower : List Line} {l : Line} {tail : Tail}
    (cut : Cut 0 t upper l lower above tail) : l.stop = bytes (above ++ l.content) := by
  simp [stop, length, cut.begins]

theorem Cut.getLast?_content_ne {start : Nat} {t above rest : Text} {upper lower : List Line} {l : Line}
    (cut : Cut start t upper l lower above (some (.lf, rest))) (split : read start t = upper ++ l :: lower) :
    l.content.getLast? ≠ some '\r' := by
  intro last
  have reads := cut.whole.reads (l.content ++ '\n' :: rest)
  have text : above ++ (l.content ++ '\n' :: rest) = t := by
    rw [cut.text, List.append_assoc]
    rfl
  rw [text, split, read_break _ _ cut.oneLine, ofTerminated, if_pos last] at reads
  have same := (List.cons_eq_cons.mp (List.append_cancel_left reads)).1
  have shorter := congrArg (List.length ∘ content) same
  cases content : l.content with
  | nil => simp [content] at last
  | cons => simp [content] at shorter

end Line

namespace Document

theorem lines_eq (d : Document) : d.lines = Line.read 0 d.text := rfl

variable {d : Document} {upper lower : List Line} {l : Line} {above : Text} {tail : Line.Tail}

theorem exists_cut (h : d.lines = upper ++ l :: lower) :
    ∃ above tail, Line.Cut 0 d.text upper l lower above tail := Line.exists_cut h

theorem apart_of_split (split : d.lines = upper ++ l :: lower) :
    (∀ x ∈ upper, x.stop < l.start) ∧ ∀ x ∈ lower, l.stop < x.start := by
  have ordered := Line.read_pairwise 0 d.text
  rw [← lines_eq, split, List.pairwise_append, List.pairwise_cons] at ordered
  obtain ⟨-, ⟨behind, -⟩, before⟩ := ordered
  exact ⟨fun x member => before x member l List.mem_cons_self, behind⟩

/-- The end of a line is a boundary that has exactly the lines above and the line's content before it. -/
theorem before_stop (cut : Line.Cut 0 d.text upper l lower above tail) :
    before d.text l.stop = above ++ l.content := by
  rw [cut.text, cut.stop_eq, before_bytes_append]

theorem after_stop (cut : Line.Cut 0 d.text upper l lower above tail) :
    after d.text l.stop = tail.text := by
  rw [cut.text, cut.stop_eq, after_bytes_append]

theorem boundary_stop (cut : Line.Cut 0 d.text upper l lower above tail) : Boundary d.text l.stop := by
  rw [Boundary, before_stop cut, cut.stop_eq]

theorem lineOf_eq {n : Nat} {lead : Text} (cut : Line.Cut 0 d.text upper l lower above tail)
    (boundary : Boundary d.text n) (split : before d.text n = above ++ lead) (oneLine : '\n' ∉ lead) :
    d.lineOf n = .ok upper.length := by
  simp [lineOf, checkOffset, boundary, split, cut.whole.breaks, List.count_eq_zero.mpr oneLine, bind, Except.bind,
    pure, Except.pure]

theorem lineBefore_eq {n : Nat} {lead : Text} (cut : Line.Cut 0 d.text upper l lower above tail)
    (boundary : Boundary d.text n) (split : before d.text n = above ++ lead) (oneLine : '\n' ∉ lead) :
    d.lineBefore n = .ok lead := by
  simp [lineBefore, checkOffset, boundary, split, cut.whole.ended _ oneLine, bind, Except.bind, pure, Except.pure]

theorem lineOf_stop (cut : Line.Cut 0 d.text upper l lower above tail) : d.lineOf l.stop = .ok upper.length :=
  lineOf_eq cut (boundary_stop cut) (before_stop cut) cut.oneLine

theorem lineBefore_stop (cut : Line.Cut 0 d.text upper l lower above tail) : d.lineBefore l.stop = .ok l.content :=
  lineBefore_eq cut (boundary_stop cut) (before_stop cut) cut.oneLine

/-- A place lies on a line, with a part of its content before it. It may also lie between the carriage return and the
line feed of an ending. -/
theorem exists_cut_at (d : Document) (n : Nat) :
    ∃ upper l lower above tail lead, d.lines = upper ++ l :: lower ∧ Line.Cut 0 d.text upper l lower above tail ∧
      before d.text n = above ++ lead ∧ '\n' ∉ lead ∧
      ('\r' ∉ lead → ∃ t, l.content = lead ++ t ∧ after d.text n = t ++ tail.text) := by
  obtain ⟨above, lead, upper, split, none, valid⟩ := Line.exists_above 0 (before d.text n)
  generalize behind : after d.text n = rest
  have text : d.text = above ++ (lead ++ rest) := by
    rw [← List.append_assoc, ← split, ← behind, before_append_after]
  obtain ⟨l, lower, eq⟩ := List.exists_cons_of_ne_nil (Line.read_ne_nil (0 + bytes above) (lead ++ rest))
  obtain ⟨nothing, tail, cut⟩ := Line.exists_cut (show _ = [] ++ l :: lower from eq)
  obtain rfl := cut.whole.eq_nil
  have inner : lead ++ rest = l.content ++ tail.text := cut.text
  refine ⟨upper, l, lower, above, tail, lead, ?_, ?_, split, none, fun noReturn => ?_⟩
  · rw [lines_eq, text, valid.reads, eq]
  · refine ⟨?_, valid, cut.begins, cut.oneLine, cut.lower⟩
    rw [text, inner, List.append_assoc]
  · rcases List.append_eq_append_iff.mp inner with ⟨t, content, rest⟩ | ⟨more, eq, ending⟩
    · exact ⟨t, content, rest⟩
    · -- What the lead has beyond the content would begin the ending.
      cases more with
      | nil => exact ⟨[], by simpa using eq.symm, by simpa using ending.symm⟩
      | cons c more =>
        have member : c ∈ lead := by rw [eq]; simp
        match tail with
        | .none => simp [Line.Tail.text] at ending
        | some (.lf, below) =>
          obtain rfl := (List.cons_eq_cons.mp ending).1
          exact absurd member none
        | some (.crlf, below) =>
          obtain rfl := (List.cons_eq_cons.mp ending).1
          exact absurd member noReturn

end Document
end Offside
