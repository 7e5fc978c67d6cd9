import Offside.Proofs.Blocks
import Offside.Proofs.KeyRuns
import Offside.Proofs.PlainKeys

/-! The text of a new path read back: a line for each key, the value behind the last colon, and what the value has
below its first line indented further than that key. -/
namespace Offside

open Text Character

/-- What may stand behind a colon so that the colon still separates. -/
def Text.IsValue (value : Text) : Prop :=
  ∀ c ∈ value.head?, c = ' ' ∨ c = '\t' ∨ c = '\n' ∨ isWhite c = false

instance (value : Text) : Decidable value.IsValue :=
  decidable_of_iff (value.head?.all fun c => c = ' ' ∨ c = '\t' ∨ c = '\n' ∨ isWhite c = false)
    (by cases value <;> simp [Text.IsValue])

theorem Text.shiftLines_of_notMem {piece : Text} (h : '\n' ∉ piece) (n : Nat) : piece.shiftLines n = piece := by
  induction piece with
  | nil => rfl
  | cons c piece ih =>
    have other : c ≠ '\n' := by rintro rfl; exact h List.mem_cons_self
    have rest := ih fun member => h (List.mem_cons_of_mem _ member)
    rw [shiftLines] at rest ⊢
    rw [List.flatMap_cons, rest, if_neg other]
    rfl

theorem Text.shiftLines_append (a b : Text) (n : Nat) :
    (a ++ b).shiftLines n = a.shiftLines n ++ b.shiftLines n := List.flatMap_append

theorem Text.shiftLines_break {piece : Text} (rest : Text) (n : Nat) (h : '\n' ∉ piece) :
    (piece ++ '\n' :: rest).shiftLines n = piece ++ '\n' :: (spaces n ++ rest.shiftLines n) := by
  rw [shiftLines_append, shiftLines_of_notMem h]
  rfl

theorem separates_value {value content : Text} (valid : value.IsValue) (start : content <+: value)
    (oneLine : '\n' ∉ content) :
    separates ((if value.head?.all isWhite then [] else [' ']) ++ content) = true := by
  split
  next white =>
    cases content with
    | nil => rfl
    | cons c content =>
      obtain ⟨rest, rfl⟩ := start
      have notNewline : c ≠ '\n' := by rintro rfl; exact oneLine List.mem_cons_self
      have isWhite : isWhite c = true := by simpa using white
      rcases valid c rfl with rfl | rfl | rfl | other
      · rfl
      · rfl
      · exact absurd rfl notNewline
      · simp [isWhite] at other
  next => rfl

/-- The colon and what keeps the value apart from it. -/
def colonPart (value : Text) : Text := ':' :: if value.head?.all isWhite then [] else [' ']

theorem getLast?_colonPart {p : Text} (value : Text) : (p ++ colonPart value).getLast? ≠ some '\r' := by
  unfold colonPart
  split <;> simp

theorem grownText_single (br : LineBreak) (column : Nat) (key value : Text) :
    grownText br column false [key] value = key ++ colonPart value ++ value.shiftLines (column + indentStep) := by
  simp [grownText, keyChain, colonPart, valuePart]

theorem grownText_cons (br : LineBreak) (column : Nat) (key next : Text) (keys : KeyPath) (value : Text) :
    grownText br column false (key :: next :: keys) value =
      key ++ ':' :: (br.text ++ (spaces (column + indentStep) ++
        grownText br (column + indentStep) false (next :: keys) value)) := by
  have columns : column + indentStep * (keys.length + 1 + 1) =
      column + indentStep + indentStep * (keys.length + 1) := by
    rw [Nat.mul_succ]; omega
  simp [grownText, keyChain, LineBreak.indented, columns]

theorem grownText_fresh (br : LineBreak) (column : Nat) (key : Text) (keys : KeyPath) (value : Text) :
    grownText br column true (key :: keys) value =
      br.text ++ (spaces column ++ grownText br column false (key :: keys) value) := by
  simp [grownText, keyChain, LineBreak.indented]

theorem notMem_keyLine (column : Nat) {key : Text} (plain : key.IsPlainKey) : '\n' ∉ spaces column ++ key := by
  simp [spaces, plain.notMem_newline]

namespace Line

/-- The line that a tail follows. A carriage return at its end may go to the tail. -/
theorem read_piece_tail {p piece : Text} (start : Nat) (tail : Tail) (h : '\n' ∉ p ++ piece)
    (last : p.getLast? ≠ some '\r') :
    ∃ content ending, content <+: piece ∧
      read start (p ++ piece ++ tail.text) =
        ⟨start, p ++ content, ending⟩ :: tail.lines (start + bytes (p ++ piece)) := by
  obtain ⟨content, eq | eq, -, ending, lines⟩ := read_tail start tail h
  · exact ⟨piece, ending, List.prefix_rfl, by rw [lines, eq]⟩
  · rcases List.eq_nil_or_concat' piece with rfl | ⟨early, c, rfl⟩
    · rw [List.append_nil] at eq
      simp [eq] at last
    · rw [← List.append_assoc] at eq
      obtain ⟨rfl, -⟩ := List.append_inj' eq rfl
      exact ⟨early, ending, List.prefix_append _ _, by rw [lines]⟩

theorem read_value {p value : Text} (start n : Nat) (tail : Tail) (h : '\n' ∉ p) (last : p.getLast? ≠ some '\r') :
    ∃ content ending more,
      read start (p ++ value.shiftLines n ++ tail.text) = ⟨start, p ++ content, ending⟩ ::
        (more ++ tail.lines (start + bytes (p ++ value.shiftLines n))) ∧
      content <+: value ∧ '\n' ∉ content ∧ (∀ x ∈ more, ∃ t, x.content = spaces n ++ t) ∧
      ('\n' ∉ value → more = []) := by
  induction value using piece_induction generalizing start p with
  | last piece none =>
    have oneLine : '\n' ∉ p ++ piece := by simp [h, none]
    obtain ⟨content, ending, within, lines⟩ := read_piece_tail start tail oneLine last
    rw [shiftLines_of_notMem none]
    exact ⟨content, ending, [], lines, within, fun member => none (within.mem member), by simp, by simp⟩
  | step piece rest none ih =>
    have oneLine : '\n' ∉ p ++ piece := by simp [h, none]
    have noBreak : '\n' ∉ spaces n := by simp [spaces]
    have noReturn : (spaces n).getLast? ≠ some '\r' := by
      intro eq
      have := List.mem_of_getLast? eq
      simp [spaces] at this
    obtain ⟨content', ending', more, below, -, -, spaced, -⟩ := ih (start + bytes (p ++ piece) + 1) noBreak noReturn
    obtain ⟨content, ending, within, lines⟩ := read_piece_tail start
      (some (.lf, spaces n ++ rest.shiftLines n ++ tail.text)) oneLine last
    refine ⟨content, ending, ⟨start + bytes (p ++ piece) + 1, spaces n ++ content', ending'⟩ :: more, ?_,
      within.trans (List.prefix_append _ _), fun member => none (within.mem member), ?_, by simp⟩
    · have text : p ++ (piece ++ '\n' :: rest).shiftLines n ++ tail.text =
          p ++ piece ++ Tail.text (some (.lf, spaces n ++ rest.shiftLines n ++ tail.text)) := by
        simp [shiftLines_break _ _ none, Tail.text, LineBreak.text]
      have stop : start + bytes (p ++ (piece ++ '\n' :: rest).shiftLines n) =
          start + bytes (p ++ piece) + 1 + bytes (spaces n ++ rest.shiftLines n) := by
        simp only [shiftLines_break _ _ none, bytes_append, bytes_cons, utf8Size_newline]
        omega
      rw [text, lines, stop]
      exact congrArg _ below
    · intro x member
      rcases List.mem_cons.mp member with rfl | member
      · exact ⟨content', rfl⟩
      · exact spaced x member

/-- Lines that hold the keys of a path, the first of them at `column`, and what its value has below it. -/
structure PathLines (column : Nat) (path : KeyPath) (value : Text) (lines : List Line) (run rest : List Item) :
    Prop where
  items : lines.flatMap Line.items = run ++ rest
  keys : KeyRun column path run
  right : StandRight (column + indentStep * (path.length - 1)) rest
  single : '\n' ∉ value → rest = []
  ends : '\n' ∉ value → '\r' ∉ value → ∀ x ∈ lines, x.content.getLast? ≠ some '\r'

theorem read_lastKey {key value : Text} (plain : key.IsPlainKey) (valid : value.IsValue) (start : Nat)
    (br : LineBreak) (column : Nat) (tail : Tail) :
    ∃ lines run rest,
      read start (spaces column ++ grownText br column false [key] value ++ tail.text) =
        lines ++ tail.lines (start + bytes (spaces column ++ grownText br column false [key] value)) ∧
      PathLines column [key] value lines run rest := by
  have oneLine : '\n' ∉ spaces column ++ key ++ colonPart value := by
    have := notMem_keyLine column plain
    unfold colonPart
    split <;> simpa using this
  obtain ⟨content, ending, more, lines, within, noBreak, spaced, single⟩ :=
    read_value start (column + indentStep) tail oneLine (getLast?_colonPart value)
  have text : spaces column ++ grownText br column false [key] value =
      spaces column ++ key ++ colonPart value ++ value.shiftLines (column + indentStep) := by
    simp [grownText_single]
  have whole : spaces column ++ key ++ colonPart value ++ content =
      spaces column ++ key ++ ':' :: ((if value.head?.all isWhite then [] else [' ']) ++ content) := by
    simp [colonPart]
  obtain ⟨-, item⟩ := items_key (l := ⟨start, spaces column ++ key ++ colonPart value ++ content, ending⟩) plain
    whole (separates_value valid within noBreak)
  refine ⟨⟨start, spaces column ++ key ++ colonPart value ++ content, ending⟩ :: more,
    [(Line.mk start (spaces column ++ key ++ colonPart value ++ content) ending).item
      (.key column key (start + column + bytes key)) column],
    more.flatMap Line.items, by rw [text]; exact lines, ?_, ?_, ?_, ?_, ?_⟩
  · rw [List.flatMap_cons, item]
  · exact ⟨_, _, _, [], rfl, rfl⟩
  · intro other member
    obtain ⟨x, onLines, onLine⟩ := List.mem_flatMap.mp member
    obtain ⟨t, eq⟩ := spaced x onLines
    refine standRight_items ?_ other onLine
    rw [inner, eq, indentation_spaces]
    cases indentation t with
    | none => rfl
    | some inner => simp [indentStep]; omega
  · intro absent
    rw [single absent]
    rfl
  · intro absent noReturn x member
    rw [single absent, List.mem_singleton] at member
    subst member
    rcases List.eq_nil_or_concat' content with rfl | ⟨early, c, rfl⟩
    · rw [List.append_nil]
      exact getLast?_colonPart value
    · intro last
      have : c = '\r' := by simpa [← List.append_assoc] using last
      subst this
      exact noReturn (within.mem (by simp))

theorem read_path {key : Text} {keys : KeyPath} {value : Text} (plain : ∀ k ∈ key :: keys, k.IsPlainKey)
    (valid : value.IsValue) (start : Nat) (br : LineBreak) (column : Nat) (tail : Tail) :
    ∃ lines run rest,
      read start (spaces column ++ grownText br column false (key :: keys) value ++ tail.text) =
        lines ++ tail.lines (start + bytes (spaces column ++ grownText br column false (key :: keys) value)) ∧
      PathLines column (key :: keys) value lines run rest := by
  induction keys generalizing key column start with
  | nil => exact read_lastKey (plain key List.mem_cons_self) valid start br column tail
  | cons next keys ih =>
    have plainKey := plain key List.mem_cons_self
    obtain ⟨lines, run, rest, below, path⟩ := ih (fun k member => plain k (List.mem_cons_of_mem _ member))
      (start + bytes (spaces column ++ key ++ [':']) + bytes br.text) (column + indentStep)
    have oneLine : '\n' ∉ spaces column ++ key ++ [':'] := by
      simpa using notMem_keyLine column plainKey
    have last : (spaces column ++ key ++ [':']).getLast? ≠ some '\r' := by simp
    obtain ⟨content, -, same, ending, first⟩ := read_tail start
      (some (br, spaces (column + indentStep) ++ grownText br (column + indentStep) false (next :: keys) value ++
        tail.text)) oneLine
    obtain rfl := same last
    obtain ⟨-, item⟩ := items_key (l := ⟨start, spaces column ++ key ++ [':'], ending⟩) plainKey rfl rfl
    have text : spaces column ++ grownText br column false (key :: next :: keys) value =
        spaces column ++ key ++ [':'] ++ (br.text ++ (spaces (column + indentStep) ++
          grownText br (column + indentStep) false (next :: keys) value)) := by
      simp [grownText_cons]
    refine ⟨⟨start, spaces column ++ key ++ [':'], ending⟩ :: lines,
      (Line.mk start (spaces column ++ key ++ [':']) ending).item (.key column key (start + column + bytes key)) column
        :: run, rest, ?_, ?_, ?_, ?_, ?_, ?_⟩
    · have broken : spaces column ++ grownText br column false (key :: next :: keys) value ++ tail.text =
          spaces column ++ key ++ [':'] ++ Tail.text (some (br, spaces (column + indentStep) ++
            grownText br (column + indentStep) false (next :: keys) value ++ tail.text)) := by
        rw [text]
        simp [Tail.text]
      rw [broken, first, Tail.lines, below, text, bytes_append _ (br.text ++ _), bytes_append br.text]
      simp only [Nat.add_assoc]
      rfl
    · rw [List.flatMap_cons, item, path.items]; rfl
    · exact ⟨_, _, _, _, rfl, path.keys⟩
    · have columns : column + indentStep * ((key :: next :: keys).length - 1) =
          column + indentStep + indentStep * ((next :: keys).length - 1) := by
        simp only [List.length_cons, Nat.add_sub_cancel, Nat.mul_succ]; omega
      rw [columns]
      exact path.right
    · exact path.single
    · intro noBreak noReturn x member
      rcases List.mem_cons.mp member with rfl | member
      · exact last
      · exact path.ends noBreak noReturn x member

end Line
end Offside
