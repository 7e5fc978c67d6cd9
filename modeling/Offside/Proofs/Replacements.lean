import Offside.Proofs.Proposals
import Offside.Proofs.Rebasing
import Offside.Proofs.Words

/-! What proposals do to a text. The word around the caret is taken out, and at most one block is put in: where the word
stood, or at the end of a line. Everything else keeps its order, and no proposal is refused. -/
namespace Offside

open Text

/-- The texts with `block` in place of the word, or with `block` at the end of a line and without the word. -/
inductive Document.Replaced (d : Document) (above word below block : Text) : Text → Prop
  | inPlace : d.Replaced above word below block (above ++ block ++ below)
  | before {l : Line} {a b : Text} (member : l ∈ d.lines) (split : above = a ++ b) (stop : l.stop = bytes a) :
    d.Replaced above word below block (a ++ block ++ b ++ below)
  | behind {l : Line} {a b : Text} (member : l ∈ d.lines) (split : below = a ++ b)
    (stop : l.stop = bytes (above ++ word ++ a)) : d.Replaced above word below block (above ++ a ++ block ++ b)

/-- `block` is the text of new keys and the value of the last one, or nothing if there are none. -/
def Document.Writes (d : Document) (keys : KeyPath) (value block : Text) : Prop :=
  keys = [] ∧ block = [] ∨ keys ≠ [] ∧ ∃ column fresh, block = grownText d.lineBreak column fresh keys value

theorem Document.exists_growAt {d : Document} {n : Nat} (boundary : Boundary d.text n) (i : Nat) (path : KeyPath)
    (value : Text) (draft : Draft) :
    ∃ column fresh, d.outline.growAt d i path n value draft =
      .ok (draft.insert n (grownText d.lineBreak column fresh path value)) := by
  simp only [Outline.growAt, lineBefore, checkOffset, boundary, ↓reduceIte, bind, Except.bind, pure, Except.pure]
  exact ⟨_, _, rfl⟩

namespace Document.WordAround

variable {d : Document} {caret : Nat} {above word below : Text} {span : Span}

section Drafts

variable (around : d.WordAround caret above word below) (stands : span = ⟨bytes above, bytes (above ++ word)⟩)

include around stands

theorem apply_insert (t : Text) :
    ∃ d' s, ((Draft.empty.delete span.start span.stop).insert span.start t).apply d = .ok (d', some s) ∧
      d'.text = above ++ t ++ below := by
  have text : d.text = above ++ [] ++ word ++ below := by simpa using around.text
  have start : span.start = bytes (above ++ []) := by rw [stands, List.append_nil]
  have stop : span.stop = bytes (above ++ [] ++ word) := by rw [stands, List.append_nil]
  obtain ⟨s, applied⟩ := Draft.apply_insert_delete text (n := span.start) (by rw [stands]) start stop t
  exact ⟨_, s, applied, by simp⟩

theorem apply_insert_stop {l : Line} (member : l ∈ d.lines) (t : Text) :
    ∃ d' s, ((Draft.empty.delete span.start span.stop).insert l.stop t).apply d = .ok (d', some s) ∧
      d.Replaced above word below t d'.text := by
  have text := around.text
  rcases around.stop_apart member with ⟨a, b, rfl, stop⟩ | ⟨a, b, rfl, stop⟩
  · subst stands
    obtain ⟨s, applied⟩ := Draft.apply_insert_delete text stop rfl rfl t
    exact ⟨_, s, applied, .before member rfl stop⟩
  · subst stands
    rw [← List.append_assoc] at text
    obtain ⟨s, applied⟩ := Draft.apply_delete_insert text rfl rfl stop t
    exact ⟨_, s, applied, .behind member rfl stop⟩

theorem apply_placeCaret {n : Nat} (boundary : Boundary d.text n) :
    ∃ d' s, ((Draft.empty.delete span.start span.stop).placeCaret n).apply d = .ok (d', some s) ∧
      d'.text = above ++ below := by
  subst stands
  obtain ⟨s, applied⟩ := Draft.apply_delete around.text rfl rfl boundary
  exact ⟨_, s, applied, rfl⟩

theorem boundary_start : Boundary d.text span.start := by
  subst stands
  exact boundary_left (around.text.trans (List.append_assoc _ _ _))

end Drafts

end Document.WordAround

namespace PathInsertion

/-- The keys that are written: those that do not exist, or the whole path where no existing key is used. -/
def missing (p : PathInsertion) (o : Outline) : KeyPath :=
  if p.reuses o (o.context p.word.start p.column) then (o.follow (o.context p.word.start p.column) p.path).2 else p.path

variable {p : PathInsertion} {d : Document} {caret : Nat} {above word below : Text}

theorem exists_child_of_reuses {o : Outline} {i : Nat} (reuses : p.reuses o i = true) :
    ∃ key keys child, p.path = key :: keys ∧ o.childNamed? i key = some child := by
  cases path : p.path with
  | nil => simp [PathInsertion.reuses, path] at reuses
  | cons key keys =>
    cases present : o.childNamed? i key with
    | none => simp [PathInsertion.reuses, path, present] at reuses
    | some child => exact ⟨key, keys, child, rfl, present⟩

theorem replaces_reusing (around : d.WordAround caret above word below)
    (stands : p.word = ⟨bytes above, bytes (above ++ word)⟩) {key : Text} {keys : KeyPath} {child : Nat}
    (path : p.path = key :: keys)
    (present : d.outline.childNamed? (d.outline.context p.word.start p.column) key = some child) :
    ∃ draft d' s block,
      d.outline.grow d (d.outline.context p.word.start p.column) p.path p.value
        (Draft.empty.delete p.word.start p.word.stop) = .ok draft ∧
      draft.apply d = .ok (d', some s) ∧ d.Replaced above word below block d'.text ∧
      d.Writes (d.outline.follow (d.outline.context p.word.start p.column) p.path).2 p.value block := by
  obtain ⟨⟨base, missing⟩, followed⟩ : ∃ r, d.outline.follow (d.outline.context p.word.start p.column) p.path = r :=
    ⟨_, rfl⟩
  obtain ⟨-, n, name, found, named⟩ := Outline.exists_key_of_follow present (path ▸ followed)
  rw [Outline.grow, followed]
  cases missing with
  | nil =>
    rcases Document.enterValue_eq d base (Draft.empty.delete p.word.start p.word.stop) with
      ⟨place, boundary, entered⟩ | ⟨-, colon, -⟩
    · obtain ⟨d', s, applied, text⟩ := around.apply_placeCaret stands boundary
      refine ⟨_, d', s, [], entered, applied, ?_, .inl ⟨rfl, rfl⟩⟩
      have replaced : d.Replaced above word below [] (above ++ [] ++ below) := .inPlace
      rwa [List.append_nil, ← text] at replaced
    · obtain ⟨column, place, kind⟩ := Kind.exists_key_of_name? named
      rw [Outline.kindOf_eq found, kind] at colon
      contradiction
  | cons first more =>
    obtain ⟨column, colon, kind⟩ := Kind.exists_key_of_name? named
    have container : n.isContainer = true := Outline.Hosts.isContainer (.inr ⟨name, named⟩)
    have column? : n.column? = some column := by rw [Node.column?, kind]; rfl
    obtain ⟨upper, l, lower, ends⟩ :=
      Document.exists_blockEnds found container (Document.TypedOn.exists_written found column?)
    have grown := Document.growNew_eq found container ends (first :: more) p.value
      (Draft.empty.delete p.word.start p.word.stop)
    have member : l ∈ d.lines := by simp [ends.split]
    obtain ⟨d', s, applied, replaced⟩ := around.apply_insert_stop stands member
      (grownText d.lineBreak (d.outline.childColumn base) true (first :: more) p.value)
    exact ⟨_, d', s, _, grown, applied, replaced, .inr ⟨List.cons_ne_nil _ _, _, _, rfl⟩⟩

/-- An insertion at the word of a caret is never refused. -/
theorem replaces (around : d.WordAround caret above word below)
    (stands : p.word = ⟨bytes above, bytes (above ++ word)⟩) (nonempty : p.path ≠ []) :
    ∃ d' s block, (Change.path p).apply d = .ok (d', some s) ∧ d.Replaced above word below block d'.text ∧
      d.Writes (p.missing d.outline) p.value block := by
  obtain ⟨draft, d', s, block, drafted, applied, replaced, writes⟩ :
      ∃ draft d' s block, p.draft d = .ok draft ∧ draft.apply d = .ok (d', some s) ∧
        d.Replaced above word below block d'.text ∧ d.Writes (p.missing d.outline) p.value block := by
    cases reuses : p.reuses d.outline (d.outline.context p.word.start p.column) with
    | false =>
      obtain ⟨column, fresh, grown⟩ := Document.exists_growAt (around.boundary_start stands)
        (d.outline.context p.word.start p.column) p.path p.value (Draft.empty.delete p.word.start p.word.stop)
      obtain ⟨d', s, applied, text⟩ :=
        around.apply_insert stands (grownText d.lineBreak column fresh p.path p.value)
      have all : p.missing d.outline = p.path := by simp [missing, reuses]
      refine ⟨_, d', s, _, ?_, applied, text ▸ Document.Replaced.inPlace, .inr ⟨all ▸ nonempty, column, fresh, ?_⟩⟩
      · simpa [PathInsertion.draft, reuses] using grown
      · rw [all]
    | true =>
      obtain ⟨key, keys, child, path, present⟩ := exists_child_of_reuses reuses
      obtain ⟨draft, d', s, block, grown, applied, replaced, writes⟩ := replaces_reusing around stands path present
      refine ⟨draft, d', s, block, ?_, applied, replaced, ?_⟩
      · simpa [PathInsertion.draft, reuses] using grown
      · simpa [missing, reuses] using writes
  refine ⟨d', s, block, ?_, replaced, writes⟩
  rw [Change.apply, drafted]
  exact applied

end PathInsertion

theorem Change.boundary_of_apply {change : Change} {d d' : Document} {s : Selection}
    (applied : change.apply d = .ok (d', some s)) : s.length = 0 ∧ Boundary d'.text s.offset := by
  cases change with
  | ready draft => exact Draft.boundary_of_apply applied
  | path insertion =>
    cases drafted : insertion.draft d with
    | error refused => simp [apply, drafted, bind, Except.bind] at applied
    | ok draft =>
      rw [apply, drafted] at applied
      exact Draft.boundary_of_apply applied

theorem Engine.candidate_replaces {e : Engine} {catalogue : Catalogue} {d : Document} {caret : Nat} {c : CaretContext}
    {above word below : Text} {p : Proposal} (candidate : p ∈ e.candidates catalogue d c)
    (around : d.WordAround caret above word below) (stands : c.word = ⟨bytes above, bytes (above ++ word)⟩) :
    ∃ d' s block, p.change.apply d = .ok (d', some s) ∧ d.Replaced above word below block d'.text := by
  unfold candidates at candidate
  cases place : c.place with
  | key =>
    rw [place] at candidate
    obtain ⟨found, path, rest, -, -, nonempty, rfl⟩ := exists_of_mem_keyProposals candidate
    obtain ⟨d', s, block, applied, replaced, -⟩ := PathInsertion.replaces
      (p := ⟨c.word, c.column, rest, found.item.shape.valueText⟩) around stands nonempty
    exact ⟨d', s, block, applied, replaced⟩
  | value colon =>
    rw [place] at candidate
    obtain ⟨key, path, property, value, order, -, -, -, -, rfl⟩ := exists_of_mem_valueProposals candidate
    obtain ⟨d', s, applied, text⟩ := around.apply_insert stands value
    exact ⟨d', s, value, applied, text ▸ Document.Replaced.inPlace⟩
  | elsewhere =>
    rw [place] at candidate
    contradiction

/-- A proposal always applies. It takes out the word around the caret and puts in at most one block, where the word stood or
at the end of a line, and it leaves a caret between two characters of the new text. -/
theorem Engine.proposal_replaces {e : Engine} {d : Document} {caret : Nat} {p : Proposal}
    (proposed : p ∈ e.proposals d caret) :
    ∃ above word below block s, d.WordAround caret above word below ∧
      d.Replaced above word below block (p.apply d).document.text ∧
      (p.apply d).returned = some s ∧ s.length = 0 ∧ Boundary (p.apply d).document.text s.offset := by
  obtain ⟨catalogue, c, -, reads, candidate⟩ := exists_candidate proposed
  obtain ⟨above, word, below, around, stands⟩ := Document.exists_wordAround reads
  obtain ⟨d', s, block, applied, replaced⟩ := candidate_replaces candidate around stands
  obtain ⟨length, boundary⟩ := Change.boundary_of_apply applied
  obtain ⟨document, returned⟩ := Proposal.apply_eq applied
  rw [document, returned]
  exact ⟨above, word, below, block, s, around, replaced, rfl, length, boundary⟩

/-- The key exists above, so the block comes to stand at the end of another line than that of the word. -/
theorem Engine.proposal_replaces_above :
    let d : Document := ⟨"a:\n  b: 1\na\nz: 2\n".toList⟩
    let e : Engine := ⟨some (.ofList [.named "a.c".toList]), none, 200⟩
    ∃ p ∈ e.proposals d 11, ∃ above word below block s, d.WordAround 11 above word below ∧
      d.Replaced above word below block (p.apply d).document.text ∧
      (p.apply d).returned = some s ∧ s.length = 0 ∧ Boundary (p.apply d).document.text s.offset := by
  intro d e
  let c : CaretContext := ⟨.key, ⟨10, 11⟩, ['a'], 0⟩
  let p : Proposal := .ofProperty ⟨.named "a.c".toList, (Closeness.mk 4 12).score⟩
    ⟨c.word, 0, ["a".toList, "c".toList], [' ']⟩ none
  have reads : d.caretContext? 11 = some c := by decide
  have candidates : e.candidates (.ofList [.named "a.c".toList]) d c = [p] := candidates_root rfl rfl
  have proposed := mem_proposals_of_single (e := e) rfl reads candidates (by decide)
  exact ⟨p, proposed, proposal_replaces proposed⟩

end Offside
