import Offside.Completion.Caret
import Offside.Proofs.Enclosures
import Offside.Proofs.PlainKeys

/-! What is read at a caret, and keys that are being typed. The word at the caret stands alone on its line, so the line
opens nothing, and the context of the word is the container that a key in its place would have. -/
namespace Offside

open Text Character

namespace Document

/-- A caret at the word of a line that holds nothing else. No dash is typed, and the next written line below does not
stand right of the word. -/
structure TypesKey (d : Document) (c : CaretContext) : Prop where
  lead : d.lineBefore c.word.start = .ok (spaces c.column)
  word : d.slice c.word.start c.word.stop ≠ ['-']
  behind : isBlank ((after d.text c.word.stop).takeWhile (· ≠ '\n')) = true
  below : ∀ n, d.lineOf c.word.start = .ok n →
    ∀ column ∈ (d.lines.drop (n + 1)).findSome? (Text.indentation ·.content), column ≤ c.column

/-- The line of a word that is typed at `column` and that nothing but blanks follows. -/
structure TypedOn (d : Document) (span : Span) (column : Nat) (upper : List Line) (q : Line) (lower : List Line)
    (above : Text) (tail : Line.Tail) (word rest : Text) : Prop where
  split : d.lines = upper ++ q :: lower
  cut : Line.Cut 0 d.text upper q lower above tail
  content : q.content = spaces column ++ word ++ rest
  start : span.start = bytes (above ++ spaces column)
  stop : span.stop = bytes (above ++ spaces column ++ word)
  letters : ∀ x ∈ word, breaksWord x = false
  dash : word ≠ ['-']
  blank : isBlank rest = true
  below : StartsBy column (lower.flatMap Line.items)

end Document

theorem Text.isBlank_spaces (n : Nat) : isBlank (spaces n) = true := by
  simp [isBlank, spaces, show isWhite ' ' = true by decide]

theorem Line.Tail.takeWhile_text {p : Char → Bool} (lf : p '\n' = false) (cr : p '\r' = false) (t : Text) (tail : Tail) :
    (t ++ tail.text).takeWhile p = t.takeWhile p := by
  have stops : tail.text.takeWhile p = [] := by
    match tail with
    | none => rfl
    | some (.lf, rest) => simp [text, LineBreak.text, lf]
    | some (.crlf, rest) => simp [text, LineBreak.text, cr]
  rw [List.takeWhile_append]
  split
  next all => rw [stops, List.append_nil, (List.takeWhile_prefix p).eq_of_length all]
  next => rfl

theorem Line.Tail.exists_word (t : Text) (tail : Tail) :
    ∃ word rest, t = word ++ rest ∧ (∀ x ∈ word, breaksWord x = false) ∧
      (t ++ tail.text).takeWhile (!breaksWord ·) = word := by
  refine ⟨t.takeWhile (!breaksWord ·), t.dropWhile (!breaksWord ·), ?_, fun x member => ?_, ?_⟩
  · rw [List.takeWhile_append_dropWhile]
  · simpa using List.mem_takeWhile_imp member
  · exact takeWhile_text (by decide) (by decide) t tail

theorem Text.isBlank_of_takeWhile {rest more : Text} (oneLine : '\n' ∉ rest)
    (blank : isBlank ((rest ++ more).takeWhile (· ≠ '\n')) = true) : isBlank rest = true := by
  rw [List.takeWhile_append_of_pos, isBlank, List.all_append, Bool.and_eq_true] at blank
  · exact blank.1
  · intro x member
    have : x ≠ '\n' := by
      rintro rfl
      exact oneLine member
    simpa using this

theorem Line.startsBy_of_findSome? {column : Nat} {lines : List Line}
    (h : ∀ c ∈ lines.findSome? (indentation ·.content), c ≤ column) : StartsBy column (lines.flatMap Line.items) := by
  induction lines with
  | nil => trivial
  | cons l lines ih =>
    rw [List.flatMap_cons]
    cases found : indentation l.content with
    | none =>
      rw [List.findSome?_cons, found] at h
      exact StartsBy.append (fun item member => column?_of_not_written (not_written.mpr found) member) (ih h)
    | some c =>
      rw [List.findSome?_cons, found] at h
      refine startsBy_items ?_ _
      simpa [inner, found] using h c rfl

theorem breaksWord_of_newline (c : Char) (h : (c == '\n') = true) : breaksWord c = true := by
  obtain rfl : c = '\n' := by simpa using h
  decide

namespace Document

/-- The line of a caret begins behind `start` with `lead`, and the word at the caret is `query` and then `rest`. -/
structure ReadsAt (d : Document) (caret : Nat) (start lead query rest : Text) : Prop where
  boundary : Boundary d.text caret
  upTo : before d.text caret = start ++ (lead ++ query)
  line : lastPart (· == '\n') (before d.text caret) = lead ++ query
  query : lastPart breaksWord (lead ++ query) = query
  behind : (after d.text caret).takeWhile (!breaksWord ·) = rest

variable {d : Document} {c : CaretContext} {caret : Nat}

section ReadsAt

variable {start lead query rest : Text}

theorem exists_readsAt (boundary : Boundary d.text caret) : ∃ start lead query rest, d.ReadsAt caret start lead query rest := by
  obtain ⟨start, upTo, -⟩ := exists_lastPart (· == '\n') (before d.text caret)
  generalize line : lastPart (· == '\n') (before d.text caret) = whole at upTo
  obtain ⟨lead, split⟩ := lastPart_suffix breaksWord whole
  generalize query : lastPart breaksWord whole = word at split
  subst split
  exact ⟨start, lead, word, _, boundary, upTo, line, query, rfl⟩

theorem ReadsAt.caret_eq (reads : d.ReadsAt caret start lead query rest) : caret = bytes start + (bytes lead + bytes query) := by
  have place : bytes (before d.text caret) = caret := reads.boundary
  rw [← place, reads.upTo, bytes_append, bytes_append]

theorem ReadsAt.oneLine (reads : d.ReadsAt caret start lead query rest) : '\n' ∉ lead ++ query := fun member =>
  absurd (not_stops_of_mem_lastPart (reads.line ▸ member)) (by decide)

theorem ReadsAt.caretContext? (reads : d.ReadsAt caret start lead query rest) :
    d.caretContext? caret = some {
      place := .of (bytes start) lead query
      word := ⟨bytes start + bytes lead, caret + bytes rest⟩
      query
      column := bytes lead } := by
  have place := reads.caret_eq
  have first : caret - (bytes lead + bytes query) = bytes start := by omega
  have second : caret - bytes query = bytes start + bytes lead := by omega
  have line : d.lineBefore caret = .ok (lead ++ query) := by
    simp only [lineBefore, checkOffset, reads.boundary, ↓reduceIte, reads.line]
    rfl
  simp [Document.caretContext?, line, reads.query, reads.behind, first, second]

theorem ReadsAt.letters (reads : d.ReadsAt caret start lead query rest) : ∀ x ∈ query, breaksWord x = false := fun _ member =>
  not_stops_of_mem_lastPart (reads.query ▸ member)

end ReadsAt

theorem exists_readsAt_of_caretContext? (h : d.caretContext? caret = some c) :
    ∃ start lead query rest, d.ReadsAt caret start lead query rest ∧
      c = ⟨.of (bytes start) lead query, ⟨bytes start + bytes lead, caret + bytes rest⟩, query, bytes lead⟩ := by
  have boundary : Boundary d.text caret := by
    by_contra outside
    simp [Document.caretContext?, lineBefore, checkOffset, outside, bind, Except.bind] at h
  obtain ⟨start, lead, query, rest, reads⟩ := exists_readsAt boundary
  exact ⟨start, lead, query, rest, reads, Option.some.inj (h.symm.trans reads.caretContext?)⟩

/-- The word spans the query and what follows the caret up to white space or a colon. -/
theorem exists_cut_of_caretContext? (h : d.caretContext? caret = some c) :
    ∃ upper q lower above tail lead, d.lines = upper ++ q :: lower ∧
      Line.Cut 0 d.text upper q lower above tail ∧ before d.text caret = above ++ lead ++ c.query ∧
      '\n' ∉ lead ++ c.query ∧ (∀ x ∈ c.query, breaksWord x = false) ∧ c.place = .of (bytes above) lead c.query ∧
      c.column = bytes lead ∧
      c.word = ⟨bytes (above ++ lead),
        bytes (above ++ lead ++ c.query) + bytes ((after d.text caret).takeWhile (!breaksWord ·))⟩ ∧
      ('\r' ∉ lead ++ c.query → ∃ t, q.content = lead ++ c.query ++ t ∧ after d.text caret = t ++ tail.text) := by
  obtain ⟨start, lead, query, rest, reads, rfl⟩ := exists_readsAt_of_caretContext? h
  obtain ⟨upper, q, lower, above, tail, line, split, cut, front, oneLine, inside⟩ := exists_cut_at d caret
  obtain rfl : lead ++ query = line := by rw [← reads.line, front, cut.whole.ended line oneLine]
  obtain rfl : start = above := List.append_cancel_right (reads.upTo.symm.trans front)
  refine ⟨upper, q, lower, start, tail, lead, split, cut, ?_, oneLine, reads.letters, rfl, rfl, ?_, inside⟩
  · rw [front, List.append_assoc]
  · rw [reads.behind, reads.caret_eq]
    simp only [bytes_append, Nat.add_assoc]

theorem exists_typedOn (h : d.caretContext? caret = some c) (typing : d.TypesKey c) :
    ∃ upper q lower above tail word rest, d.TypedOn c.word c.column upper q lower above tail word rest := by
  obtain ⟨upper, q, lower, above, tail, lead, split, cut, before', oneLine, letters, -, column, span, inside⟩ :=
    exists_cut_of_caretContext? h
  have text : d.text = above ++ lead ++ (c.query ++ after d.text caret) := by
    rw [← List.append_assoc, ← before', before_append_after]
  have atStart : before d.text c.word.start = above ++ lead := by
    rw [span]
    dsimp only
    rw [text, before_bytes_append]
  have boundary : Boundary d.text c.word.start := by rw [Boundary, atStart, span]
  have leads : '\n' ∉ lead := fun member => oneLine (List.mem_append_left _ member)
  -- The lead holds spaces alone, so that the caret is not within an ending.
  obtain rfl : lead = spaces c.column :=
    Except.ok.inj ((lineBefore_eq cut boundary atStart leads).symm.trans typing.lead)
  have noReturn : '\r' ∉ spaces c.column ++ c.query := by
    intro member
    rcases List.mem_append.mp member with inLead | inQuery
    · simp [spaces] at inLead
    · exact absurd (letters _ inQuery) (by decide)
  obtain ⟨t, content, behind⟩ := inside noReturn
  obtain ⟨more, rest, rfl, inWord, word⟩ := Line.Tail.exists_word t tail
  rw [← behind] at word
  have start : c.word.start = bytes (above ++ spaces c.column) := by rw [span]
  have stop : c.word.stop = bytes (above ++ spaces c.column ++ (c.query ++ more)) := by
    rw [span, word, ← List.append_assoc _ c.query, bytes_append _ more]
  have whole : d.text = above ++ spaces c.column ++ (c.query ++ more) ++ (rest ++ tail.text) := by
    rw [text, behind]
    simp
  refine ⟨upper, q, lower, above, tail, c.query ++ more, rest, split, cut, ?_, start, stop, ?_, ?_, ?_, ?_⟩
  · simp [content]
  · intro x member
    rcases List.mem_append.mp member with inQuery | inMore
    · exact letters x inQuery
    · exact inWord x inMore
  · intro dash
    apply typing.word
    rw [slice, stop, whole, before_bytes_append, start, after_bytes_append, dash]
  · have blank := typing.behind
    rw [stop, whole, after_bytes_append] at blank
    exact isBlank_of_takeWhile (fun member => cut.oneLine (by simp [content, member])) blank
  · apply Line.startsBy_of_findSome?
    intro n
    have below := typing.below upper.length (lineOf_eq cut boundary atStart leads) n
    rwa [split, List.drop_length_add_append] at below

namespace TypedOn

variable {span : Span} {column : Nat} {upper lower : List Line} {q : Line} {above word rest : Text}
  {tail : Line.Tail}

theorem notMem_colon (typed : d.TypedOn span column upper q lower above tail word rest) :
    ':' ∉ word ++ rest := by
  intro member
  rcases List.mem_append.mp member with inWord | inRest
  · exact absurd (typed.letters _ inWord) (by decide)
  · exact absurd (List.all_eq_true.mp typed.blank _ inRest) (by decide)

theorem exists_item (typed : d.TypedOn span column upper q lower above tail word rest) :
    ∃ x, q.items = [x] ∧ x.kind.isContainer = false ∧ ∀ c, x.kind.column? = some c → c = column := by
  cases found : Text.indentation q.content with
  | none =>
    obtain ⟨c, -, eq⟩ := Line.items_gap found
    exact ⟨_, eq, rfl, nofun⟩
  | some c =>
    have content : q.content = spaces column ++ (word ++ rest) := by rw [typed.content, List.append_assoc]
    have nonempty : word ≠ [] := by
      rintro rfl
      have blank : isBlank q.content = true := by
        rw [content, isBlank, List.all_append, List.nil_append, Bool.and_eq_true]
        exact ⟨isBlank_spaces column, typed.blank⟩
      simp [indentation_of_isBlank blank] at found
    obtain ⟨first, more, rfl⟩ := List.exists_cons_of_ne_nil nonempty
    have letter : isWhite first = false := by
      have := typed.letters first List.mem_cons_self
      rw [breaksWord, Bool.or_eq_false_iff] at this
      exact this.1
    have space : first ≠ ' ' := by rintro rfl; exact absurd letter (by decide)
    have tab : first ≠ '\t' := by rintro rfl; exact absurd letter (by decide)
    have entry : ¬(first = '-' ∧ (more ++ rest).head?.all (· == ' ') = true) := by
      rintro ⟨rfl, opens⟩
      cases more with
      | nil => exact typed.dash rfl
      | cons next more =>
        obtain rfl : next = ' ' := by simpa using opens
        exact absurd (typed.letters ' ' (by simp)) (by decide)
    rw [List.cons_append] at content
    obtain rfl : c = column := column_eq_of_indentation space (content ▸ found)
    have opened := Line.items_written content found
    rw [if_neg tab, Line.itemsFrom_leaf _ _ space entry] at opened
    have keyless : keyPart? (first :: (more ++ rest)) = none := keyPart?_of_notMem typed.notMem_colon
    refine ⟨_, opened, ?_, ?_⟩
    · rw [Line.leaf, keyless]
      rfl
    · intro x stands
      rw [Line.leaf, keyless] at stands
      exact (Option.some.inj stands).symm

theorem items_eq (typed : d.TypedOn span column upper q lower above tail word rest) :
    d.items = upper.flatMap Line.items ++ (q.items ++ lower.flatMap Line.items) := by
  rw [Document.items, typed.split, List.flatMap_append, List.flatMap_cons]

theorem begins (typed : d.TypedOn span column upper q lower above tail word rest) :
    span.start = q.start + column ∧ span.start ≤ q.stop := by
  have start := typed.start
  have first := typed.cut.begins
  have length : q.length = column + bytes word + bytes rest := by
    rw [Line.length, typed.content, bytes_append, bytes_append, bytes_spaces]
  rw [bytes_append, bytes_spaces] at start
  rw [Line.stop, length]
  omega

/-- The context of the word is the container that the lines above give to its column. -/
theorem context_eq (typed : d.TypedOn span column upper q lower above tail word rest) :
    d.outline.context span.start column =
      enclosing (closeTo column (openedAfter [] 1 (upper.flatMap Line.items))) := by
  have content : q.content = spaces column ++ (word ++ rest) := by rw [typed.content, List.append_assoc]
  rw [typed.begins.1]
  exact context_eq_of_content typed.split content

theorem context_le (typed : d.TypedOn span column upper q lower above tail word rest) :
    d.outline.context span.start column ≤ (upper.flatMap Line.items).length := by
  have valid := (stacked_nil 1).openedAfter (upper.flatMap Line.items) Nat.zero_lt_one
  have := (valid.closeTo column).enclosing_lt (by omega)
  rw [typed.context_eq]
  omega

end TypedOn

end Document
end Offside
