import Offside.Proofs.Carets

/-! The word around a caret: the letters before the caret and behind it, up to white space or a colon. No line ends within
it. -/
namespace Offside

open Text Character

/-- A key is typed behind spaces and dashes, unless a comment is. -/
theorem CaretPlace.of_eq_key_iff {start : Nat} {lead query : Text} :
    of start lead query = .key ↔ query.head? ≠ some '#' ∧ leadsToKey lead = true := by
  simp only [of]
  by_cases comment : query.head? = some '#'
  · simp [comment]
  · by_cases leads : leadsToKey lead = true
    · simp [comment, leads]
    · rw [if_neg comment, if_neg leads]
      split <;> simp [leads]

theorem CaretPlace.of_eq_value {start colon : Nat} {lead query : Text} (place : of start lead query = .value colon) :
    (trimEnd lead).getLast? = some ':' ∧ colon = start + bytes (trimEnd lead) - 1 := by
  unfold of at place
  dsimp only at place
  split at place
  · contradiction
  split at place
  · contradiction
  split at place
  next ends => exact ⟨ends, (CaretPlace.value.inj place).symm⟩
  next => contradiction

theorem letters_of_leadsToKey {lead : Text} (leads : leadsToKey lead = true) : ∀ x ∈ lead, x = ' ' ∨ x = '-' := by
  induction lead using leadsToKey.induct with
  | case1 => simp
  | case2 rest ih =>
    rw [leadsToKey] at leads
    simpa using ih leads
  | case3 rest ih =>
    rw [leadsToKey, Bool.and_eq_true] at leads
    simpa using ih leads.2
  | case4 lead nil space dash => simp [leadsToKey] at leads

theorem leadsToKey_getLast? {lead : Text} (leads : leadsToKey lead = true) : lead.getLast? ≠ some '\r' := by
  intro last
  have := letters_of_leadsToKey leads '\r' (List.mem_of_getLast? last)
  contradiction

namespace Document

/-- `word` has no white space and no colon in it, the caret stands in it or at one of its ends, and it cannot be longer. -/
structure WordAround (d : Document) (caret : Nat) (above word below : Text) : Prop where
  text : d.text = above ++ word ++ below
  letters : ∀ x ∈ word, breaksWord x = false
  caret : ∃ query rest, word = query ++ rest ∧ caret = bytes (above ++ query)
  first : ∀ x ∈ above.getLast?, breaksWord x = true
  last : ∀ x ∈ below.head?, breaksWord x = true

variable {d : Document} {c : CaretContext} {caret : Nat} {above word below : Text}

/-- What is read at a caret, wherever it stands: the lead of its line, the query, and what the word has behind the caret. -/
theorem exists_caretLine (h : d.caretContext? caret = some c) :
    ∃ start lead, before d.text caret = start ++ lead ++ c.query ∧ caret = bytes (start ++ lead ++ c.query) ∧
      (∀ x ∈ start.getLast?, x = '\n') ∧ '\n' ∉ lead ∧ c.query = lastPart breaksWord (before d.text caret) ∧
      c.place = .of (bytes start) lead c.query ∧
      c.word = ⟨bytes (start ++ lead), caret + bytes ((after d.text caret).takeWhile (!breaksWord ·))⟩ := by
  obtain ⟨start, lead, query, rest, reads, rfl⟩ := exists_readsAt_of_caretContext? h
  obtain ⟨above, split, first⟩ := exists_lastPart (· == '\n') (before d.text caret)
  rw [reads.line, reads.upTo] at split
  obtain rfl := List.append_cancel_right split
  refine ⟨start, lead, ?_, ?_, fun x last => by simpa using first x last, ?_, ?_, rfl, ?_⟩
  · rw [reads.upTo, List.append_assoc]
  · rw [reads.caret_eq, bytes_append, bytes_append, Nat.add_assoc]
  · exact fun member => reads.oneLine (List.mem_append_left _ member)
  · rw [← lastPart_lastPart breaksWord_of_newline, reads.line, reads.query]
  · rw [reads.behind, bytes_append]

theorem exists_wordAround (h : d.caretContext? caret = some c) :
    ∃ above word below, d.WordAround caret above word below ∧ c.word = ⟨bytes above, bytes (above ++ word)⟩ := by
  obtain ⟨start, lead, upTo, place, -, -, query, -, span⟩ := exists_caretLine h
  obtain ⟨above, split, first⟩ := exists_lastPart breaksWord (before d.text caret)
  rw [← query, upTo] at split
  obtain rfl : start ++ lead = above := List.append_cancel_right split
  have behind : (after d.text caret).takeWhile (!breaksWord ·) ++ (after d.text caret).dropWhile (!breaksWord ·) =
      after d.text caret := List.takeWhile_append_dropWhile
  have stops := List.head?_dropWhile_not (!breaksWord ·) (after d.text caret)
  have inRest (x : Char) (member : x ∈ (after d.text caret).takeWhile (!breaksWord ·)) : breaksWord x = false := by
    simpa using List.mem_takeWhile_imp member
  generalize (after d.text caret).takeWhile (!breaksWord ·) = rest at span behind inRest
  generalize (after d.text caret).dropWhile (!breaksWord ·) = below at behind stops
  have text : d.text = start ++ lead ++ (c.query ++ rest) ++ below := by
    rw [← before_append_after d.text caret, upTo, ← behind]
    simp only [List.append_assoc]
  refine ⟨start ++ lead, c.query ++ rest, below,
    ⟨text, fun x member => ?_, ⟨c.query, rest, rfl, place⟩, first, fun x next => ?_⟩, ?_⟩
  · rcases List.mem_append.mp member with inQuery | inside
    · exact not_stops_of_mem_lastPart (query ▸ inQuery)
    · exact inRest x inside
  · rw [next] at stops
    simpa using stops
  · rw [span, place, ← bytes_append, List.append_assoc]

theorem WordAround.exists_lead (around : d.WordAround caret above word below) (h : d.caretContext? caret = some c)
    (stands : c.word = ⟨bytes above, bytes (above ++ word)⟩) :
    ∃ start lead, above = start ++ lead ∧ (∀ x ∈ start.getLast?, x = '\n') ∧ '\n' ∉ lead ∧
      c.place = .of (bytes start) lead c.query := by
  obtain ⟨start, lead, upTo, place, first, oneLine, -, kind, span⟩ := exists_caretLine h
  refine ⟨start, lead, ?_, first, oneLine, kind⟩
  have same : bytes above = bytes (start ++ lead) := (Span.mk.inj (stands.symm.trans span)).1
  have whole : d.text = start ++ lead ++ (c.query ++ after d.text caret) := by
    rw [← List.append_assoc, ← upTo, before_append_after]
  rw [around.text, List.append_assoc above] at whole
  exact (append_inj_of_bytes whole same).1

theorem breaksWord_of_tail (tail : Line.Tail) : ∀ x ∈ tail.text.head?, breaksWord x = true := by
  intro x first
  match tail with
  | none => contradiction
  | some (.lf, below) =>
    obtain rfl := Option.some.inj first
    decide
  | some (.crlf, below) =>
    obtain rfl := Option.some.inj first
    decide

theorem WordAround.stop_apart (around : d.WordAround caret above word below) {l : Line} (member : l ∈ d.lines) :
    (∃ a b, above = a ++ b ∧ l.stop = bytes a) ∨ ∃ a b, below = a ++ b ∧ l.stop = bytes (above ++ word ++ a) := by
  obtain ⟨upper, lower, split⟩ := List.append_of_mem member
  obtain ⟨start, tail, cut⟩ := exists_cut split
  have stop := cut.stop_eq
  have text := cut.text.symm.trans around.text
  rw [List.append_assoc above] at text
  rcases List.append_eq_append_iff.mp text with ⟨b, early, -⟩ | ⟨part, late, rest⟩
  · exact .inl ⟨_, b, early, stop⟩
  · rcases List.append_eq_append_iff.mp rest.symm with ⟨inner, inside, ending⟩ | ⟨a, whole, behind⟩
    · cases inner with
      | nil =>
        rw [List.append_nil] at inside
        exact .inr ⟨[], below, rfl, by rw [stop, late, ← inside, List.append_nil]⟩
      | cons x inner =>
        -- The line would end within the word.
        have letter := around.letters x (by simp [inside])
        have breaks := breaksWord_of_tail tail x (by rw [ending]; rfl)
        simp [letter] at breaks
    · exact .inr ⟨a, tail.text, behind, by rw [stop, late, whole, List.append_assoc]⟩

end Document
end Offside
