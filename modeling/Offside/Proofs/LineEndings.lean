import Offside.Proofs.Replacements

/-! Line endings. In a document that returns every line feed, the lines of new keys are ended in the same way. What follows a
completed map or sequence starts a line with a line feed alone. -/
namespace Offside

open Text

/-- Every line feed stands right behind a carriage return. -/
def Text.FeedsReturned (t : Text) : Prop := ∀ a b, t = a ++ '\n' :: b → a.getLast? = some '\r'

/-- Every carriage return stands right before a line feed. -/
def Text.ReturnsFed (t : Text) : Prop := ∀ a b, t = a ++ '\r' :: b → b.head? = some '\n'

instance (t : Text) : Decidable t.FeedsReturned := inferInstanceAs (Decidable (∀ _ _, _ → _))

instance (t : Text) : Decidable t.ReturnsFed := inferInstanceAs (Decidable (∀ _ _, _ → _))

namespace Text

variable {x y : Text}

theorem FeedsReturned.of_append_left (h : FeedsReturned (x ++ y)) : FeedsReturned x := by
  rintro a b rfl
  exact h a (b ++ y) (by simp)

/-- Two texts join unless they form an ending where they meet. -/
theorem feedsReturned_append (apart : x.getLast? ≠ some '\r' ∨ y.head? ≠ some '\n') :
    FeedsReturned (x ++ y) ↔ FeedsReturned x ∧ FeedsReturned y := by
  constructor
  · intro h
    refine ⟨h.of_append_left, ?_⟩
    rintro a b rfl
    have last := h (x ++ a) b (List.append_assoc _ _ _).symm
    cases List.eq_nil_or_concat' a with
    | inl empty =>
      subst empty
      rw [List.append_nil] at last
      simp [last] at apart
    | inr ends =>
      obtain ⟨a, z, rfl⟩ := ends
      simpa [← List.append_assoc] using last
  · rintro ⟨first, second⟩ a b split
    rcases List.append_eq_append_iff.mp split with ⟨c, rfl, inside⟩ | ⟨c, rfl, rest⟩
    · have last := second c b inside
      rw [List.getLast?_append, last]
      rfl
    · cases c with
      | nil =>
        obtain rfl : '\n' :: b = y := rest
        have last := second [] b rfl
        contradiction
      | cons z c =>
        obtain ⟨rfl, -⟩ := List.cons_eq_cons.mp rest
        exact first a c rfl

theorem getLast?_append_ne {z : Char} (first : x.getLast? ≠ some z) (second : y.getLast? ≠ some z) :
    (x ++ y).getLast? ≠ some z := by
  cases last : y.getLast? with
  | none => simpa [List.getLast?_append, last] using first
  | some other => simpa [List.getLast?_append, last] using second

theorem getLast?_ne_of_append {z : Char} (h : (x ++ y).getLast? ≠ some z) : y.getLast? ≠ some z := by
  intro last
  rw [List.getLast?_append, last] at h
  exact h rfl

theorem feedsReturned_of_notMem {t : Text} (h : '\n' ∉ t) : t.FeedsReturned := by
  rintro a b rfl
  simp at h

end Text

namespace Document

variable {d : Document} {caret : Nat} {above word below block t : Text} {c : CaretContext}

theorem lineBreak_of_feedsReturned (breaks : '\n' ∈ d.text) (feeds : d.text.FeedsReturned) : d.lineBreak = .crlf := by
  obtain ⟨piece, rest, text, none⟩ := List.eq_append_cons_of_mem breaks
  have last := feeds piece rest text
  rw [lineBreak, lines_eq, text, Line.read_break 0 rest none, Line.ofTerminated, if_pos last]
  rfl

theorem getLast?_stop_ne (fed : d.text.ReturnsFed) {l : Line} (member : l ∈ d.lines) {a b : Text} (text : d.text = a ++ b)
    (stop : l.stop = bytes a) : a.getLast? ≠ some '\r' := by
  obtain ⟨upper, lower, split⟩ := List.append_of_mem member
  obtain ⟨above, tail, cut⟩ := exists_cut split
  have upTo := before_stop cut
  have behind := after_stop cut
  rw [stop, text, before_bytes_append] at upTo
  rw [stop, text, after_bytes_append] at behind
  subst upTo behind
  intro last
  obtain ⟨more, ends⟩ := List.getLast?_eq_some_iff.mp last
  have next := fed more tail.text (by rw [text, ends]; simp)
  match tail with
  | none => contradiction
  | some (.crlf, rest) => simp [Line.Tail.text, LineBreak.text] at next
  | some (.lf, rest) =>
    cases List.eq_nil_or_concat' l.content with
    | inl empty =>
      -- The lines above end with a line feed.
      have ended := cut.whole.ended [] (by simp)
      rw [empty, List.append_nil] at last
      obtain ⟨start, rfl⟩ := List.getLast?_eq_some_iff.mp last
      simp [lastPart] at ended
    | inr content =>
      obtain ⟨early, z, content⟩ := content
      have here := cut.getLast?_content_ne split
      rw [content, ← List.append_assoc, List.getLast?_concat] at last
      simp [content, last] at here

theorem Replaced.feedsReturned_iff (around : d.WordAround caret above word below) (feeds : d.text.FeedsReturned)
    (fed : d.text.ReturnsFed) (lead : above.getLast? ≠ some '\r') (ends : block.getLast? ≠ some '\r')
    (replaced : d.Replaced above word below block t) : t.FeedsReturned ↔ block.FeedsReturned := by
  have word' : word.getLast? ≠ some '\r' := fun last =>
    absurd (around.letters '\r' (List.mem_of_getLast? last)) (by decide)
  have text := around.text
  have first : above.FeedsReturned := by
    rw [text, List.append_assoc] at feeds
    exact feeds.of_append_left
  have last : below.FeedsReturned := by
    rw [text, feedsReturned_append (.inl (getLast?_append_ne lead word'))] at feeds
    exact feeds.2
  cases replaced with
  | inPlace =>
    rw [feedsReturned_append (.inl (getLast?_append_ne lead ends)), feedsReturned_append (.inl lead)]
    simp [first, last]
  | @before l a b member split stop =>
    subst split
    rw [List.append_assoc, List.append_assoc] at text
    have line := getLast?_stop_ne fed member text stop
    have more := getLast?_ne_of_append lead
    rw [feedsReturned_append (.inl line)] at first
    rw [feedsReturned_append (.inl (getLast?_append_ne (getLast?_append_ne line ends) more)),
      feedsReturned_append (.inl (getLast?_append_ne line ends)), feedsReturned_append (.inl line)]
    simp [first, last]
  | @behind l a b member split stop =>
    subst split
    rw [← List.append_assoc] at text
    have line := getLast?_ne_of_append (getLast?_stop_ne fed member text stop)
    rw [feedsReturned_append (.inl line)] at last
    rw [feedsReturned_append (.inl (getLast?_append_ne (getLast?_append_ne lead line) ends)),
      feedsReturned_append (.inl (getLast?_append_ne lead line)), feedsReturned_append (.inl lead)]
    simp [first, last]

end Document

theorem feedsReturned_keyChain (column : Nat) (fresh : Bool) (keys : KeyPath) :
    (keyChain .crlf column fresh keys).FeedsReturned ↔ ∀ key ∈ keys, key.FeedsReturned := by
  induction keys generalizing column fresh with
  | nil => simpa [keyChain] using feedsReturned_of_notMem List.not_mem_nil
  | cons key keys ih =>
    obtain ⟨lead, chain, returned, ends⟩ : ∃ lead,
        keyChain .crlf column fresh (key :: keys) =
          lead ++ (key ++ ([':'] ++ keyChain .crlf (column + indentStep) true keys)) ∧
        lead.FeedsReturned ∧ lead.getLast? ≠ some '\r' := by
      cases fresh with
      | false => exact ⟨[], by simp [keyChain], feedsReturned_of_notMem List.not_mem_nil, by simp⟩
      | true =>
        have noFeed : '\n' ∉ spaces column := by simp [spaces]
        refine ⟨['\r', '\n'] ++ spaces column, ?_, ?_, getLast?_append_ne (by simp) fun last => ?_⟩
        · simp [keyChain, LineBreak.indented, LineBreak.text]
        · exact (feedsReturned_append (.inl (by simp))).mpr ⟨by decide, feedsReturned_of_notMem noFeed⟩
        · have := List.mem_of_getLast? last
          simp [spaces] at this
    rw [chain, feedsReturned_append (.inl ends), feedsReturned_append (.inr (by simp)),
      feedsReturned_append (.inl (by simp)), ih, List.forall_mem_cons]
    simp [returned, feedsReturned_of_notMem (show '\n' ∉ [':'] by decide)]

theorem getLast?_keyChain_ne (br : LineBreak) (column : Nat) (fresh : Bool) (keys : KeyPath) :
    (keyChain br column fresh keys).getLast? ≠ some '\r' := by
  induction keys generalizing column fresh with
  | nil => simp [keyChain]
  | cons key keys ih =>
    have colon : ((if fresh then br.indented column else []) ++ key ++ [':']).getLast? ≠ some '\r' := by simp
    simpa [keyChain] using getLast?_append_ne colon (ih (column + indentStep) true)

/-- Only a blank is put behind the colon of a plain value. Other values start a line, with a line feed alone. -/
theorem Shape.feedsReturned_valuePart (shape : Shape) (column : Nat) :
    ((valuePart column shape.valueText).FeedsReturned ↔ shape = .atomic) ∧
      (valuePart column shape.valueText).getLast? ≠ some '\r' := by
  have bare (rest : Text) : ¬FeedsReturned ('\n' :: rest) := fun returned => by
    have last := returned [] rest rfl
    contradiction
  have noReturn : (spaces column).getLast? ≠ some '\r' := by
    intro last
    have := List.mem_of_getLast? last
    simp [spaces] at this
  have white : Character.isWhite '\n' = true := by decide
  cases shape with
  | atomic =>
    have part : valuePart column Shape.atomic.valueText = [' '] := rfl
    rw [part]
    exact ⟨by decide, by decide⟩
  | map =>
    have part : valuePart column Shape.map.valueText = ['\n'] ++ spaces column := by
      simp [valuePart, valueText, shiftLines, white]
    rw [part]
    exact ⟨by simp [bare], getLast?_append_ne (by decide) noReturn⟩
  | sequence =>
    have part : valuePart column Shape.sequence.valueText = ['\n'] ++ spaces column ++ ['-', ' '] := by
      simp [valuePart, valueText, shiftLines, white]
    rw [part]
    exact ⟨by simp [bare], getLast?_append_ne (getLast?_append_ne (by decide) noReturn) (by decide)⟩

/-- What an insertion writes returns its line feeds if it is nothing, or if it ends with a plain value and the keys do. -/
theorem Document.Writes.feedsReturned_iff {d : Document} {keys : KeyPath} {shape : Shape} {block : Text}
    (crlf : d.lineBreak = .crlf) (writes : d.Writes keys shape.valueText block) :
    block.getLast? ≠ some '\r' ∧
      (block.FeedsReturned ↔ keys = [] ∨ shape = .atomic ∧ ∀ key ∈ keys, key.FeedsReturned) := by
  rcases writes with ⟨rfl, rfl⟩ | ⟨written, column, fresh, rfl⟩
  · exact ⟨by simp, by simpa using feedsReturned_of_notMem List.not_mem_nil⟩
  · obtain ⟨plain, ends⟩ := Shape.feedsReturned_valuePart shape (column + indentStep * keys.length)
    have colon := getLast?_keyChain_ne d.lineBreak column fresh keys
    refine ⟨getLast?_append_ne colon ends, ?_⟩
    rw [grownText, feedsReturned_append (.inl colon), plain, crlf, feedsReturned_keyChain]
    simp [written, and_comm]

theorem Document.WordAround.getLast?_ne_of_key {d : Document} {caret : Nat} {above word below : Text} {c : CaretContext}
    (around : d.WordAround caret above word below) (reads : d.caretContext? caret = some c)
    (stands : c.word = ⟨bytes above, bytes (above ++ word)⟩) (key : c.place = .key) : above.getLast? ≠ some '\r' := by
  obtain ⟨start, lead, rfl, first, -, place⟩ := around.exists_lead reads stands
  obtain ⟨-, leads⟩ := CaretPlace.of_eq_key_iff.mp (place.symm.trans key)
  refine getLast?_append_ne (fun last => ?_) (leadsToKey_getLast? leads)
  have := first '\r' last
  contradiction

/-- In a document that ends its lines with a carriage return and a line feed, a property leaves a line feed alone exactly if
it writes keys and the value is no plain one, or if a key that it writes holds such a line feed itself. -/
theorem Engine.property_feedsReturned_iff {e : Engine} {d : Document} {caret : Nat} {p : Proposal} {found : Match Property}
    (breaks : '\n' ∈ d.text) (feeds : d.text.FeedsReturned) (fed : d.text.ReturnsFed) (proposed : p ∈ e.proposals d caret)
    (offer : p.offer = .property found) :
    ∃ insertion, p.change = .path insertion ∧ insertion.path ≠ [] ∧
      insertion.path <:+ KeyPath.ofDotted found.item.id ∧
      ((p.apply d).document.text.FeedsReturned ↔ insertion.missing d.outline = [] ∨
        found.item.shape = .atomic ∧ ∀ key ∈ insertion.missing d.outline, key.FeedsReturned) := by
  obtain ⟨catalogue, c, -, reads, key, candidate⟩ := exists_keyProposal proposed offer
  obtain ⟨above, word, below, around, stands⟩ := Document.exists_wordAround reads
  obtain ⟨other, path, rest, -, split, nonempty, rfl⟩ := exists_of_mem_keyProposals candidate
  obtain rfl : other = found := Offer.property.inj offer
  obtain ⟨d', s, block, applied, replaced, writes⟩ := PathInsertion.replaces
    (p := ⟨c.word, c.column, rest, other.item.shape.valueText⟩) around stands nonempty
  obtain ⟨ends, iff⟩ := writes.feedsReturned_iff (Document.lineBreak_of_feedsReturned breaks feeds)
  have lead := around.getLast?_ne_of_key reads stands key
  refine ⟨_, rfl, nonempty, ⟨path, split.symm⟩, ?_⟩
  rw [(Proposal.apply_eq applied).1, replaced.feedsReturned_iff around feeds fed lead ends, iff]

/-- A plain value is completed in a document that returns its line feeds. -/
theorem Engine.property_feedsReturned_nested :
    let d : Document := ⟨"a: 1\r\n".toList⟩
    let e : Engine := ⟨some (.ofList [.named "m.n".toList]), none, 200⟩
    ∃ p ∈ e.proposals d 6, (p.apply d).document.text.FeedsReturned := by
  intro d e
  let c : CaretContext := ⟨.key, ⟨6, 6⟩, [], 0⟩
  let insertion : PathInsertion := ⟨c.word, 0, ["m".toList, "n".toList], [' ']⟩
  let p : Proposal := .ofProperty ⟨.named "m.n".toList, (Closeness.mk 1 1).score⟩ insertion none
  have reads : d.caretContext? 6 = some c := by decide
  have candidates : e.candidates (.ofList [.named "m.n".toList]) d c = [p] := candidates_root rfl rfl
  have proposed := mem_proposals_of_single (e := e) rfl reads candidates (by decide)
  obtain ⟨other, change, -, -, iff⟩ := property_feedsReturned_iff (by decide) (by decide) (by decide) proposed rfl
  obtain rfl : insertion = other := Change.path.inj change
  have missing : insertion.missing d.outline = ["m".toList, "n".toList] := by decide +kernel
  rw [missing] at iff
  exact ⟨p, proposed, iff.mpr (.inr ⟨by decide, by decide⟩)⟩

/-- A completed map starts its first line with a line feed alone. -/
theorem Engine.property_feedsReturned_map :
    let d : Document := ⟨"a: 1\r\n".toList⟩
    let map : Property := { Property.named "m".toList with type := some "java.util.Map".toList }
    let e : Engine := ⟨some (.ofList [map]), none, 200⟩
    '\n' ∈ d.text ∧ d.text.FeedsReturned ∧ d.text.ReturnsFed ∧
      ∃ p ∈ e.proposals d 6, p.property?.isSome = true ∧ (p.apply d).document.text = "a: 1\r\nm:\n  ".toList ∧
        ¬(p.apply d).document.text.FeedsReturned := by
  intro d map e
  let c : CaretContext := ⟨.key, ⟨6, 6⟩, [], 0⟩
  let insertion : PathInsertion := ⟨c.word, 0, ["m".toList], ['\n']⟩
  let p : Proposal := .ofProperty ⟨map, (Closeness.mk 1 1).score⟩ insertion none
  have reads : d.caretContext? 6 = some c := by decide
  have candidates : e.candidates (.ofList [map]) d c = [p] := candidates_root rfl rfl
  have proposed := mem_proposals_of_single (e := e) rfl reads candidates (by decide)
  have reuses : insertion.reuses d.outline (d.outline.context 6 0) = false := by decide +kernel
  have drafted : insertion.draft d = .ok (Draft.empty.insert 6 "m:\n  ".toList) := by
    rw [PathInsertion.draft, reuses, Outline.context_zero]
    rfl
  obtain ⟨document, -⟩ := Proposal.apply_eq (p := p) ((Change.apply_path drafted).trans (Draft.apply_insert (by decide) _))
  refine ⟨by decide, by decide, by decide, p, proposed, rfl, ?_⟩
  rw [document]
  exact ⟨rfl, by decide⟩

end Offside
