import Offside.Proofs.DocumentOrder
import Offside.Proofs.Values

/-! The line of a caret. What stands there before the caret begins the content of the line, unless the caret is between the
carriage return and the line feed of an ending. -/
namespace Offside

open Text Character

namespace Document

/-- A caret on line `l`, with `lead` before the query and `behind` after it, up to the end of the text. -/
structure CaretOn (d : Document) (caret : Nat) (c : CaretContext) (l : Line) (lead behind : Text) : Prop where
  member : l ∈ d.lines
  content : ∃ tail : Line.Tail, lead ++ c.query ++ behind = l.content ++ tail.text
  oneLine : '\n' ∉ lead ++ c.query
  letters : ∀ x ∈ c.query, breaksWord x = false
  place : c.place = .of l.start lead c.query
  column : c.column = bytes lead
  start : c.word.start = l.start + bytes lead
  stands : caret = l.start + bytes (lead ++ c.query)
  stop : c.word.stop = caret + bytes (behind.takeWhile (!breaksWord ·))

variable {d : Document} {caret : Nat} {c : CaretContext} {l : Line} {lead behind : Text}

theorem exists_caretOn (reads : d.caretContext? caret = some c) (around : d.lineAround caret = .ok l) :
    ∃ lead behind, d.CaretOn caret c l lead behind := by
  obtain ⟨upper, q, lower, above, tail, lead, split, cut, before', oneLine, letters, place, column, span, -⟩ :=
    exists_cut_of_caretContext? reads
  have boundary : Boundary d.text caret := by
    by_contra outside
    simp [lineAround, lineOf, checkOffset, outside, bind, Except.bind] at around
  have number := lineOf_eq cut boundary (before'.trans (List.append_assoc _ _ _)) oneLine
  have found : d.lines[upper.length]? = some q := by simp [split]
  obtain rfl : q = l := by simpa [lineAround, number, line, found, bind, Except.bind] using around
  have begins : q.start = bytes above := by rw [cut.begins, Nat.zero_add]
  have stands : caret = bytes (above ++ lead ++ c.query) := by
    rw [← before']
    exact boundary.symm
  refine ⟨lead, after d.text caret, by simp [split], ⟨tail, ?_⟩, oneLine, letters, begins ▸ place, column, ?_, ?_, ?_⟩
  · have whole : above ++ (lead ++ c.query ++ after d.text caret) = above ++ (q.content ++ tail.text) := by
      rw [← List.append_assoc above q.content, ← cut.text, ← List.append_assoc, ← List.append_assoc, ← before',
        before_append_after]
    exact List.append_cancel_left whole
  · rw [span, begins, bytes_append]
  · rw [stands, begins, List.append_assoc, bytes_append above]
  · rw [span, stands]

namespace CaretOn

theorem exists_content (on : d.CaretOn caret c l lead behind) {part more : Text} (split : lead ++ c.query = part ++ more)
    (last : part.getLast? ≠ some '\r') : ∃ t, l.content = part ++ t := by
  obtain ⟨tail, content⟩ := on.content
  rw [split, List.append_assoc] at content
  have oneLine : '\n' ∉ part := fun member => on.oneLine (by rw [split]; exact List.mem_append_left _ member)
  obtain ⟨t, begins, -⟩ := Line.Tail.exists_of_append_eq oneLine last content
  exact ⟨t, begins⟩

/-- The colon that a value is typed behind belongs to a key of the line, if it belongs to any. -/
theorem exists_key (on : d.CaretOn caret c l lead behind) {colon i : Nat} (place : c.place = .value colon)
    (found : d.outline.keyAtColon? colon = some i) : ∃ n column name,
    d.outline.nodes[i]? = some n ∧ n.kind = .key column name colon ∧ n.toItem ∈ l.items := by
  obtain ⟨bound, at', -⟩ := List.findIdx?_eq_some_iff_getElem.mp found
  have here : d.outline.nodes[i]? = some d.outline.nodes[i] := List.getElem?_eq_getElem bound
  obtain ⟨column, name, key⟩ := Kind.exists_key_of_colon? (show _ = some colon by simpa using at')
  obtain ⟨front, gap, rfl, -, rfl⟩ := CaretPlace.exists_of_value (on.place.symm.trans place)
  obtain ⟨t, content⟩ := on.exists_content (show _ = (front ++ [':']) ++ (gap ++ c.query) by simp) (by simp)
  have length : bytes front < l.length := by
    rw [Line.length, content, bytes_append, bytes_append, bytes_cons, utf8Size_colon]
    omega
  have upTo : l.start + bytes front ≤ l.stop := by
    rw [Line.stop]
    omega
  have stands : d.outline.nodes[i].kind.column? = some column := by rw [key]; rfl
  have item := mem_items_of_node here (Kind.ne_root_of_column? stands)
  have keyed := keyAt_of_kind here key
  exact ⟨_, column, name, here, key, mem_items_of_covers on.member (Nat.le_add_right _ _) upTo item
    (Nat.le_of_lt keyed.starts) (Nat.le_of_lt keyed.stops)⟩

end CaretOn

end Document
end Offside
