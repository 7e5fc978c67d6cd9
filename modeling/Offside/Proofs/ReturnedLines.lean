import Mathlib.Data.List.TakeWhile
import Mathlib.Order.Monotone.Defs
import Offside.Proofs.Relocations
import Offside.Proofs.Values
import Offside.Proofs.Words

/-! Carriage returns before the line feeds of a text. They belong to the endings of its lines alone, so that the document
keeps its outline and its proposals, at places that each line feed before them has moved by one. -/
namespace Offside

open Text Character

namespace Text

/-- The text with a carriage return before each line feed. -/
def withReturns (t : Text) : Text := t.flatMap fun c => if c = '\n' then ['\r', '\n'] else [c]

/-- Where a place of the text is found once it has the returns. -/
def returnedPlace (t : Text) (n : Nat) : Nat := n + (before t n).count '\n'

@[simp] theorem withReturns_append (a b : Text) : withReturns (a ++ b) = withReturns a ++ withReturns b :=
  List.flatMap_append

@[simp] theorem withReturns_newline (t : Text) : withReturns ('\n' :: t) = '\r' :: '\n' :: withReturns t := rfl

theorem withReturns_cons {c : Char} (other : c ≠ '\n') (t : Text) : withReturns (c :: t) = c :: withReturns t := by
  simp [withReturns, other]

theorem withReturns_of_notMem {t : Text} (none : '\n' ∉ t) : withReturns t = t := by
  induction t with
  | nil => rfl
  | cons c t ih =>
    obtain ⟨other, later⟩ := List.ne_and_not_mem_of_not_mem_cons none
    rw [withReturns_cons (Ne.symm other), ih later]

theorem bytes_withReturns (t : Text) : bytes (withReturns t) = bytes t + t.count '\n' := by
  induction t using piece_induction with
  | last piece none => rw [withReturns_of_notMem none, List.count_eq_zero.mpr none, Nat.add_zero]
  | step piece rest none ih =>
    simp only [withReturns_append, withReturns_newline, withReturns_of_notMem none, bytes_append, bytes_cons, ih,
      utf8Size_return, utf8Size_newline, List.count_append, List.count_eq_zero.mpr none, List.count_cons_self]
    omega

theorem before_append (a b : Text) (n : Nat) : before (a ++ b) (bytes a + n) = a ++ before b n := by
  induction a with
  | nil => simp
  | cons c a ih => simp [before, Nat.add_assoc, ih]

theorem before_mono (t : Text) {m n : Nat} (le : m ≤ n) : before t m <+: before t n := by
  induction t generalizing m n with
  | nil => exact List.prefix_refl _
  | cons c t ih =>
    by_cases first : c.utf8Size ≤ m
    · have first' := Nat.le_trans first le
      simp only [before, first, first', ↓reduceIte]
      exact List.cons_prefix_cons.mpr ⟨rfl, ih (by omega)⟩
    · simp [before, first]

theorem returnedPlace_append (a b : Text) (n : Nat) :
    returnedPlace (a ++ b) (bytes a + n) = bytes (withReturns a) + returnedPlace b n := by
  rw [returnedPlace, returnedPlace, before_append, List.count_append, bytes_withReturns]
  omega

theorem returnedPlace_break {piece : Text} (none : '\n' ∉ piece) (rest : Text) (n : Nat) :
    returnedPlace (piece ++ '\n' :: rest) (bytes piece + 1 + n) = bytes piece + 2 + returnedPlace rest n := by
  have moved := returnedPlace_append (piece ++ ['\n']) rest n
  simpa [bytes_withReturns, List.count_eq_zero.mpr none, List.append_assoc] using moved

theorem returnedPlace_of_le {a b : Text} {n : Nat} (none : '\n' ∉ a) (le : n ≤ bytes a) : returnedPlace (a ++ b) n = n := by
  have inside := before_mono (a ++ b) le
  rw [before_bytes_append] at inside
  have none' : '\n' ∉ before (a ++ b) n := fun member => none (inside.mem member)
  rw [returnedPlace, List.count_eq_zero.mpr none', Nat.add_zero]

/-- All places on a line are moved alike. -/
theorem returnedPlace_within {line : Text} {n : Nat} (none : '\n' ∉ line) (le : n ≤ bytes line) (above below : Text) :
    returnedPlace (above ++ (line ++ below)) (bytes above + n) = bytes (withReturns above) + n := by
  rw [returnedPlace_append, returnedPlace_of_le none le]

@[simp] theorem returnedPlace_zero (t : Text) : returnedPlace t 0 = 0 := by
  rw [returnedPlace, before_zero]
  rfl

theorem strictMono_returnedPlace (t : Text) : StrictMono (returnedPlace t) := by
  intro m n less
  have more := (before_mono t (Nat.le_of_lt less)).sublist.count_le '\n'
  exact Nat.add_lt_add_of_lt_of_le less more

/-- What comes before the corresponding place is what came before the place, with its returns. -/
theorem before_withReturns (t : Text) (n : Nat) : before (withReturns t) (returnedPlace t n) = withReturns (before t n) := by
  induction t generalizing n with
  | nil => rfl
  | cons c t ih =>
    by_cases feed : c = '\n'
    · subst feed
      cases n with
      | zero => rw [returnedPlace_zero, before_zero, before_zero]; rfl
      | succ n =>
        have place : returnedPlace ('\n' :: t) (n + 1) = returnedPlace t n + 1 + 1 := by
          simp [returnedPlace, before]
          omega
        simp [place, before, ih]
    · rw [withReturns_cons feed]
      by_cases fits : c.utf8Size ≤ n
      · obtain ⟨k, rfl⟩ := Nat.exists_eq_add_of_le fits
        have place : returnedPlace (c :: t) (c.utf8Size + k) = c.utf8Size + returnedPlace t k := by
          simp [returnedPlace, before, feed, Nat.add_assoc]
        simp [place, before, withReturns_cons feed, ih]
      · simp [returnedPlace, before, fits, withReturns]

theorem after_withReturns (t : Text) (n : Nat) : after (withReturns t) (returnedPlace t n) = withReturns (after t n) := by
  have whole := before_append_after (withReturns t) (returnedPlace t n)
  conv_rhs at whole => rw [← before_append_after t n, withReturns_append]
  rw [before_withReturns] at whole
  exact List.append_cancel_left whole

theorem boundary_withReturns {t : Text} {n : Nat} : Boundary (withReturns t) (returnedPlace t n) ↔ Boundary t n := by
  rw [Boundary, Boundary, before_withReturns, bytes_withReturns, returnedPlace, Nat.add_right_cancel_iff]

theorem lastPart_withReturns (t : Text) : lastPart (· == '\n') (withReturns t) = lastPart (· == '\n') t := by
  induction t using piece_induction with
  | last piece none => rw [withReturns_of_notMem none]
  | step piece rest none ih =>
    have split : withReturns (piece ++ '\n' :: rest) = (piece ++ ['\r']) ++ '\n' :: withReturns rest := by
      simp [withReturns_of_notMem none]
    rw [split, lastPart_break, lastPart_break, ih]

theorem takeWhile_withReturns (t : Text) :
    (withReturns t).takeWhile (!breaksWord ·) = t.takeWhile (!breaksWord ·) := by
  induction t with
  | nil => rfl
  | cons c t ih =>
    by_cases feed : c = '\n'
    · subst feed
      rfl
    · rw [withReturns_cons feed, List.takeWhile_cons, List.takeWhile_cons, ih]

end Text

namespace Line

def returned (f : Nat → Nat) (l : Line) : Line := ⟨f l.start, l.content, l.ending.map fun _ => .crlf⟩

/-- Every line keeps its content, at the place that corresponds to its start. -/
theorem read_withReturns {f : Nat → Nat} {start k : Nat} {t : Text} (bare : '\r' ∉ t)
    (places : ∀ n, f (start + n) = start + k + returnedPlace t n) :
    read (start + k) (withReturns t) = (read start t).map (returned f) := by
  induction t using piece_induction generalizing start k with
  | last piece none =>
    have first : f start = start + k := by simpa using places 0
    rw [withReturns_of_notMem none, read_piece _ none, read_piece _ none, List.map_singleton, returned, first]
    rfl
  | step piece rest none ih =>
    obtain ⟨bare', later⟩ : '\r' ∉ piece ∧ '\r' ∉ rest := by simpa using bare
    have first : f start = start + k := by simpa using places 0
    have split : withReturns (piece ++ '\n' :: rest) = (piece ++ ['\r']) ++ '\n' :: withReturns rest := by
      simp [withReturns_of_notMem none]
    have last : piece.getLast? ≠ some '\r' := fun last => bare' (List.mem_of_getLast? last)
    have places' (n : Nat) :
        f (start + bytes piece + 1 + n) = start + bytes piece + 1 + (k + 1) + returnedPlace rest n := by
      have at' := places (bytes piece + 1 + n)
      rw [returnedPlace_break none] at at'
      rw [Nat.add_assoc, Nat.add_assoc, ← Nat.add_assoc (bytes piece), at']
      omega
    have below := ih later places'
    have next : start + k + bytes (piece ++ ['\r']) + 1 = start + bytes piece + 1 + (k + 1) := by
      simp only [bytes_append, bytes_cons, bytes_nil, utf8Size_return]
      omega
    rw [split, read_break _ _ (by simpa using none), read_break _ _ none, ofTerminated_return,
      ofTerminated_of_getLast? _ last, List.map_cons, ← below, returned, first, next]
    rfl

theorem items_returned {f : Nat → Nat} {l : Line} (places : ∀ n ≤ l.length, f (l.start + n) = f l.start + n) :
    (l.returned f).items = l.items.map (Item.move f) := by
  obtain ⟨start, content, ending⟩ := l
  rw [returned, items_at, items_at start, List.map_map]
  refine List.map_congr_left fun item member => ?_
  have linear (n : Nat) (le : n ≤ bytes content) : f (n + start) = n + f start := by
    rw [Nat.add_comm, places n le, Nat.add_comm]
  obtain ⟨-, first, last⟩ := bounds_of_mem_items member
  have whole : (Line.mk 0 content none).stop = bytes content := Nat.zero_add _
  rw [whole] at first last
  have colon (c : Nat) (at' : item.kind.colon? = some c) : c ≤ bytes content := by
    have bound : c < (Line.mk 0 content none).stop := (colon_bounds member at').2
    rw [whole] at bound
    exact bound.le
  obtain ⟨kind, begins, ends⟩ := item
  cases kind with
  | key column name c =>
    simp [Item.shift, Item.move, Kind.shift, Kind.move, linear c (colon c rfl), linear _ first, linear _ last.le]
  | _ => simp [Item.shift, Item.move, Kind.shift, Kind.move, linear _ first, linear _ last.le]

end Line

theorem CaretPlace.of_move {f : Nat → Nat} {start start' : Nat} {lead : Text} (query : Text)
    (places : ∀ n ≤ bytes lead, f (start + n) = start' + n) :
    of start' lead query = (of start lead query).move f := by
  simp only [of]
  split
  · rfl
  · split
    · rfl
    · split
      next ends =>
        obtain ⟨gap, split, -⟩ := exists_trimEnd lead
        obtain ⟨key, settled⟩ := List.getLast?_eq_some_iff.mp ends
        have within : bytes key ≤ bytes lead := by
          rw [split, settled]
          simp only [bytes_append]
          omega
        have colon (start : Nat) : start + bytes (trimEnd lead) - 1 = start + bytes key := by
          rw [settled, bytes_append]
          rfl
        rw [colon, colon, move, places _ within]
      next => rfl

namespace Document

/-- The document with a carriage return before each line feed. -/
def withReturns (d : Document) : Document := ⟨d.text.withReturns⟩

variable {d : Document}

theorem returnedPlace_line {l : Line} (member : l ∈ d.lines) {n : Nat} (le : n ≤ l.length) :
    d.text.returnedPlace (l.start + n) = d.text.returnedPlace l.start + n := by
  obtain ⟨upper, lower, split⟩ := List.append_of_mem member
  obtain ⟨above, tail, cut⟩ := exists_cut split
  have moved (m : Nat) (le : m ≤ l.length) :
      d.text.returnedPlace (l.start + m) = bytes above.withReturns + m := by
    rw [cut.text, List.append_assoc, cut.begins, Nat.zero_add]
    exact returnedPlace_within cut.oneLine le above tail.text
  have first : d.text.returnedPlace l.start = bytes above.withReturns := moved 0 (Nat.zero_le _)
  rw [moved n le, first]

theorem items_withReturns (bare : '\r' ∉ d.text) :
    d.withReturns.items = d.items.map (Item.move d.text.returnedPlace) := by
  have lines : d.withReturns.lines = d.lines.map (Line.returned d.text.returnedPlace) := by
    rw [lines_eq, lines_eq]
    exact Line.read_withReturns (k := 0) bare fun n => by simp
  rw [items, items, lines, List.flatMap_map, List.map_flatMap]
  exact List.flatMap_congr fun l member => Line.items_returned fun n le => returnedPlace_line member le

theorem outline_withReturns (bare : '\r' ∉ d.text) : d.withReturns.outline = d.outline.move d.text.returnedPlace := by
  have root : Node.move d.text.returnedPlace ⟨⟨.root, 0, 0⟩, none⟩ = ⟨⟨.root, 0, 0⟩, none⟩ := by
    simp [Node.move, Item.move, Kind.move]
  rw [outline, outline, Outline.move, items_withReturns bare, List.map_cons, root, nest_map]
  · rfl
  · simp [Item.move]
  · simp [Item.move]

section ReadsAt

variable {caret : Nat} {start lead query rest : Text}

/-- All that is read stands on one line, on which the places are moved alike. -/
theorem ReadsAt.returnedPlace (reads : d.ReadsAt caret start lead query rest) {n : Nat}
    (le : n ≤ bytes lead + bytes query + bytes rest) :
    d.text.returnedPlace (bytes start + n) = bytes start.withReturns + n := by
  have inRest : '\n' ∉ rest := fun member => absurd (List.mem_takeWhile_imp (reads.behind ▸ member)) (by decide)
  obtain ⟨below, after'⟩ : rest <+: after d.text caret := reads.behind ▸ List.takeWhile_prefix _
  have text : d.text = start ++ (lead ++ query ++ rest ++ below) := by
    rw [← before_append_after d.text caret, reads.upTo, ← after']
    simp only [List.append_assoc]
  rw [text]
  refine returnedPlace_within (fun member => ?_) (by simpa [Nat.add_assoc] using le) start below
  exact (List.mem_append.mp member).elim reads.oneLine inRest

theorem ReadsAt.withReturns (reads : d.ReadsAt caret start lead query rest) :
    d.withReturns.ReadsAt (d.text.returnedPlace caret) start.withReturns lead query rest where
  boundary := boundary_withReturns.mpr reads.boundary
  upTo := by
    rw [Document.withReturns, before_withReturns, reads.upTo, withReturns_append, withReturns_of_notMem reads.oneLine]
  line := by rw [Document.withReturns, before_withReturns, lastPart_withReturns, reads.line]
  query := reads.query
  behind := by rw [Document.withReturns, after_withReturns, takeWhile_withReturns, reads.behind]

end ReadsAt

theorem caretContext?_withReturns (d : Document) (caret : Nat) :
    d.withReturns.caretContext? (d.text.returnedPlace caret) =
      (d.caretContext? caret).map (CaretContext.move d.text.returnedPlace) := by
  by_cases boundary : Boundary d.text caret
  · obtain ⟨start, lead, query, rest, reads⟩ := exists_readsAt boundary
    have place := CaretPlace.of_move query fun n (le : n ≤ bytes lead) => reads.returnedPlace (n := n) (by omega)
    have first : bytes start.withReturns + bytes lead = d.text.returnedPlace (bytes start + bytes lead) :=
      (reads.returnedPlace (by omega)).symm
    have last : d.text.returnedPlace caret + bytes rest = d.text.returnedPlace (caret + bytes rest) := by
      rw [reads.caret_eq, Nat.add_assoc (bytes start), reads.returnedPlace (by omega), reads.returnedPlace (by omega),
        Nat.add_assoc]
    rw [reads.withReturns.caretContext?, reads.caretContext?, place, first, last]
    rfl
  · have boundary' : ¬Boundary d.withReturns.text (d.text.returnedPlace caret) := boundary_withReturns.not.mpr boundary
    have refused {d : Document} {n : Nat} (h : ¬Boundary d.text n) : d.caretContext? n = none := by
      simp [caretContext?, lineBefore, checkOffset, h, bind, Except.bind]
    rw [refused boundary', refused boundary, Option.map_none]

/-- A text without carriage returns may have one before each line feed: the nodes stand in the same order with the same
names, columns and containers, and at every corresponding caret the same is offered in the same order. Only the places
are those that correspond to each other. -/
theorem withReturns_moves (bare : '\r' ∉ d.text) :
    (∀ n, before d.withReturns.text (d.text.returnedPlace n) = (before d.text n).withReturns) ∧
    d.withReturns.outline = d.outline.move d.text.returnedPlace ∧
    (∀ i, d.withReturns.outline.children i = (d.outline.children i).map (Prod.map (Node.move d.text.returnedPlace) id)) ∧
    (∀ i, d.withReturns.outline.blockEnd i = d.text.returnedPlace (d.outline.blockEnd i)) ∧
    ∀ (e : Engine) (caret : Nat), e.proposals d.withReturns (d.text.returnedPlace caret) =
      (e.proposals d caret).map (Proposal.move d.text.returnedPlace) := by
  have order := strictMono_returnedPlace d.text
  have outline := outline_withReturns bare
  refine ⟨before_withReturns d.text, outline, fun i => ?_, fun i => ?_, fun e caret => ?_⟩
  · rw [outline, Outline.children_move]
  · rw [outline, Outline.blockEnd_move order (returnedPlace_zero _)]
  · exact e.proposals_move order outline (caretContext?_withReturns d caret)

/-- A key below another one: its line begins one byte later, and so does the word that is typed there. -/
theorem withReturns_moves_nested :
    let d : Document := ⟨"a:\n  c".toList⟩
    let e : Engine := ⟨some (.ofList [.named "a.cd".toList]), none, 200⟩
    d.withReturns.text = "a:\r\n  c".toList ∧ d.withReturns.outline.blockEnd 1 = 7 ∧
      (e.proposals d.withReturns 7).map Proposal.label = ["a.cd".toList] := by
  intro d e
  obtain ⟨-, -, -, ends, proposals⟩ := Document.withReturns_moves (show '\r' ∉ d.text by decide)
  have stop : d.outline.blockEnd 1 = 6 := by decide +kernel
  let c : CaretContext := ⟨.key, ⟨5, 6⟩, ['c'], 2⟩
  have reads : d.caretContext? 6 = some c := by decide
  have reached : d.outline.keyPath? (d.outline.context 5 2) = some ["a".toList] := by decide +kernel
  have candidates : e.candidates (.ofList [.named "a.cd".toList]) d c =
      [.ofProperty ⟨.named "a.cd".toList, (Closeness.mk 12 16).score⟩ ⟨c.word, 2, ["cd".toList], [' ']⟩ none] :=
    (Engine.candidates_key rfl reached).trans rfl
  have labels : (e.proposals d 6).map Proposal.label = ["a.cd".toList] := by
    rw [Engine.proposals_of_single rfl reads candidates (by decide)]
    rfl
  have place : d.text.returnedPlace 6 = 7 := by decide
  refine ⟨by decide, ?_, ?_⟩
  · rw [ends, stop, place]
  · rw [← place, proposals, List.map_map, ← labels]
    rfl

end Document

end Offside
