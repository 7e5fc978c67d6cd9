import Offside.Proofs.CaretLines
import Offside.Proofs.Weaving

/-! Comments and completion. A proposal takes away the word around the caret and nothing else. On the line of a comment that
is nothing, unless the caret stands right before the mark: then the mark begins the word. -/
namespace Offside

open Text Character

def Change.draft (doc : Document) : Change → Except EditError Draft
  | ready draft => .ok draft
  | path insertion => insertion.draft doc

theorem Change.apply_eq (change : Change) (doc : Document) :
    change.apply doc = (change.draft doc).bind fun draft => draft.apply doc := by
  cases change <;> rfl

/-- An application takes the byte at an offset away. -/
def Proposal.Drops (p : Proposal) (doc : Document) (offset : Nat) : Prop :=
  ∃ draft, p.change.draft doc = .ok draft ∧ Splice.drops draft.splices offset = true

namespace Draft

variable (draft : Draft) (offset : Nat)

theorem drops_insert (place : Nat) (t : Text) :
    Splice.drops (draft.insert place t).splices offset = Splice.drops draft.splices offset := by
  have nothing : (place ≤ offset && offset < place) = false := by simp
  simp only [insert, Splice.drops, List.any_append, List.any_cons, List.any_nil, Splice.insertion, nothing, Bool.or_false]

theorem drops_delete (start stop : Nat) :
    Splice.drops (Draft.empty.delete start stop).splices offset = (start ≤ offset && offset < stop) := by
  by_cases same : start = stop
  · simp [delete, same, Draft.empty, Splice.drops]
  · simp [delete, same, Draft.empty, Splice.drops, Splice.deletion]

end Draft

section Growth

variable {o : Outline} {doc : Document} {i : Nat} {path : KeyPath} {value : Text} {draft grown : Draft}

theorem Outline.drops_enterValue (h : o.enterValue doc i draft = .ok grown) (offset : Nat) :
    Splice.drops grown.splices offset = Splice.drops draft.splices offset := by
  unfold enterValue at h
  split at h
  · rw [← Except.ok.inj h]
    rfl
  · rw [← Except.ok.inj h]
  next colon _ _ =>
    cases at' : doc.charAt colon with
    | error refused => simp [at', bind, Except.bind] at h
    | ok c =>
      simp only [at', bind, Except.bind, pure, Except.pure, Except.ok.injEq] at h
      rw [← h]
      rfl

theorem Outline.drops_growNew (h : o.growNew doc i path value draft = .ok grown) (offset : Nat) :
    Splice.drops grown.splices offset = Splice.drops draft.splices offset := by
  cases place : o.growthOffset doc i with
  | error refused => simp [growNew, place, bind, Except.bind] at h
  | ok n =>
    cases lead : doc.lineBefore n with
    | error refused => simp [growNew, place, lead, bind, Except.bind] at h
    | ok front =>
      simp only [growNew, place, lead, bind, Except.bind, pure, Except.pure, Except.ok.injEq] at h
      rw [← h, Draft.drops_insert]

theorem Outline.drops_grow (h : o.grow doc i path value draft = .ok grown) (offset : Nat) :
    Splice.drops grown.splices offset = Splice.drops draft.splices offset := by
  unfold grow at h
  split at h
  · exact drops_enterValue h offset
  · exact drops_growNew h offset

theorem Outline.drops_growAt {place : Nat} (h : o.growAt doc i path place value draft = .ok grown) (offset : Nat) :
    Splice.drops grown.splices offset = Splice.drops draft.splices offset := by
  cases lead : doc.lineBefore place with
  | error refused => simp [growAt, lead, bind, Except.bind] at h
  | ok front =>
    simp only [growAt, lead, bind, Except.bind, pure, Except.pure, Except.ok.injEq] at h
    rw [← h, Draft.drops_insert]

theorem PathInsertion.drops_draft {p : PathInsertion} (h : p.draft doc = .ok grown) (offset : Nat) :
    Splice.drops grown.splices offset = (p.word.start ≤ offset && offset < p.word.stop) := by
  rw [← Draft.drops_delete]
  unfold draft at h
  dsimp only at h
  split at h
  · exact Outline.drops_grow h offset
  · exact Outline.drops_growAt h offset

end Growth

/-- A candidate takes away the word of the caret, and nothing else. -/
theorem Engine.drops_iff {e : Engine} {catalogue : Catalogue} {d : Document} {caret : Nat} {c : CaretContext} {p : Proposal}
    (reads : d.caretContext? caret = some c) (candidate : p ∈ e.candidates catalogue d c) (offset : Nat) :
    p.Drops d offset ↔ c.word.start ≤ offset ∧ offset < c.word.stop := by
  obtain ⟨above, word, below, around, stands⟩ := Document.exists_wordAround reads
  obtain ⟨d', s, block, applied, -⟩ := candidate_replaces candidate around stands
  have drops (draft : Draft) (made : p.change.draft d = .ok draft) :
      Splice.drops draft.splices offset = (c.word.start ≤ offset && offset < c.word.stop) := by
    unfold candidates at candidate
    cases place : c.place with
    | key =>
      rw [place] at candidate
      obtain ⟨found, path, rest, -, -, -, rfl⟩ := exists_of_mem_keyProposals candidate
      exact PathInsertion.drops_draft made offset
    | value colon =>
      rw [place] at candidate
      obtain ⟨key, path, property, value, order, -, -, -, -, rfl⟩ := exists_of_mem_valueProposals candidate
      rw [← Except.ok.inj made, Draft.drops_insert, Draft.drops_delete]
    | elsewhere =>
      rw [place] at candidate
      contradiction
  rw [Change.apply_eq] at applied
  constructor
  · rintro ⟨draft, made, gone⟩
    rw [drops draft made] at gone
    simpa using gone
  · intro within
    cases made : p.change.draft d with
    | error refused => simp [made, Except.bind] at applied
    | ok draft => exact ⟨draft, made, by rw [drops draft made]; simpa using within⟩

/-- Where a key is typed on the line of a comment, the caret stands before the mark, and the word is empty unless the mark is
next. -/
theorem Document.CaretOn.word_of_comment {d : Document} {caret n : Nat} {c : CaretContext} {l : Line} {lead behind t : Text}
    (on : d.CaretOn caret c l lead behind) (content : l.content = spaces n ++ '#' :: t) (place : c.place = .key) :
    c.word.start = caret ∧ caret ≤ l.start + n ∧ (caret < c.word.stop ↔ caret = l.start + n) := by
  obtain ⟨unmarked, leads⟩ := CaretPlace.of_eq_key_iff.mp (on.place.symm.trans place)
  obtain ⟨tail, split⟩ := on.content
  obtain ⟨x, margin, rest⟩ : ∃ x, spaces n = lead ++ x ∧ c.query ++ behind = x ++ '#' :: (t ++ tail.text) := by
    rw [content, List.append_assoc, List.append_assoc] at split
    rcases List.append_eq_append_iff.mp split with ⟨x, margin, rest⟩ | ⟨x, long, rest⟩
    · exact ⟨x, margin, rest⟩
    · cases x with
      | nil => exact ⟨[], by simpa using long.symm, by simpa using rest.symm⟩
      | cons y x =>
        -- The mark would stand in the lead.
        obtain rfl := (List.cons_eq_cons.mp rest).1
        have := letters_of_leadsToKey leads '#' (by simp [long])
        contradiction
  have gap : ∀ y ∈ x, y = ' ' := fun y member => List.eq_of_mem_replicate (show y ∈ spaces n by simp [margin, member])
  have query : c.query = [] := by
    refine List.eq_nil_iff_forall_not_mem.mpr fun y member => ?_
    obtain ⟨q, more, first⟩ := List.exists_cons_of_ne_nil (List.ne_nil_of_mem member)
    rw [first, List.cons_append] at rest
    cases x with
    | nil =>
      obtain rfl := (List.cons_eq_cons.mp rest).1
      exact unmarked (by rw [first]; rfl)
    | cons z x =>
      obtain rfl := (List.cons_eq_cons.mp rest).1
      have breaks := on.letters q (by simp [first])
      rw [gap q List.mem_cons_self] at breaks
      contradiction
  have size := congrArg bytes margin
  rw [bytes_spaces, bytes_append] at size
  have start := on.start
  have stop := on.stop
  have stands := on.stands
  rw [query, List.nil_append] at rest
  rw [query, List.append_nil] at stands
  refine ⟨by omega, by omega, ?_⟩
  cases x with
  | nil =>
    have word : behind.takeWhile (!breaksWord ·) = '#' :: (t ++ tail.text).takeWhile (!breaksWord ·) := by
      rw [rest, List.nil_append, List.takeWhile_cons_of_pos (by decide)]
    have mark := Char.utf8Size_pos '#'
    rw [word, bytes_cons] at stop
    rw [bytes_nil] at size
    omega
  | cons z x =>
    obtain rfl := gap z List.mem_cons_self
    have word : behind.takeWhile (!breaksWord ·) = [] := by
      rw [rest, List.cons_append, List.takeWhile_cons_of_neg (by decide)]
    rw [word, bytes_nil] at stop
    rw [bytes_cons, utf8Size_space] at size
    omega

/-- On the line of a comment nothing is proposed behind the mark. Before it, a proposal leaves the line as it is, up to its
end, exactly if the caret does not stand right before the mark: then something is put in, and nothing else happens. -/
theorem Engine.comment_kept_iff {e : Engine} {d : Document} {caret n : Nat} {l : Line} {t : Text} {p : Proposal}
    (around : d.lineAround caret = .ok l) (content : l.content = spaces n ++ '#' :: t) (proposed : p ∈ e.proposals d caret) :
    caret ≤ l.start + n ∧
    ((∀ b, l.start + n ≤ b → b < l.start + bytes l.full → ¬p.Drops d b) ↔ caret ≠ l.start + n) ∧
    (caret ≠ l.start + n → ∃ a block b, d.text = a ++ b ∧ (p.apply d).document.text = a ++ block ++ b) := by
  obtain ⟨catalogue, c, -, reads, candidate⟩ := exists_candidate proposed
  obtain ⟨lead, behind, on⟩ := Document.exists_caretOn reads around
  have place : c.place = .key := by
    unfold candidates at candidate
    cases place : c.place with
    | key => rfl
    | value colon =>
      -- The line holds a gap alone, so that no colon on it belongs to a key.
      rw [place] at candidate
      obtain ⟨i, path, property, value, order, found, -⟩ := exists_of_mem_valueProposals candidate
      obtain ⟨x, column, name, -, key, inside⟩ := on.exists_key place found
      have unwritten : indentation l.content = none := by
        rw [content, indentation_spaces]
        simp [indentation_cons]
      obtain ⟨margin, -, single⟩ := Line.items_gap unwritten
      rw [single, List.mem_singleton] at inside
      have gap : x.kind = .gap := by rw [inside]; rfl
      rw [key] at gap
      contradiction
    | elsewhere =>
      rw [place] at candidate
      contradiction
  obtain ⟨start, before, mark⟩ := on.word_of_comment content place
  have drops := drops_iff reads candidate
  refine ⟨before, ⟨fun kept here => ?_, fun other b lower upper gone => ?_⟩, fun other => ?_⟩
  · have inside : caret < l.start + bytes l.full := by
      have := Char.utf8Size_pos '#'
      rw [Line.full, content, bytes_append, bytes_append, bytes_spaces, bytes_cons]
      omega
    exact kept caret (Nat.le_of_eq here.symm) inside ((drops caret).mpr ⟨Nat.le_of_eq start, mark.mpr here⟩)
  · have within := (drops b).mp gone
    have := mt mark.mp other
    omega
  · obtain ⟨above, word, below, around', stands⟩ := Document.exists_wordAround reads
    obtain ⟨d', s, block, applied, replaced⟩ := candidate_replaces candidate around' stands
    have empty := mt mark.mp other
    obtain rfl : word = [] := by
      rw [← start, stands, bytes_append] at empty
      dsimp only at empty
      have := length_le_bytes word
      exact List.length_eq_zero_iff.mp (by omega)
    have text : d.text = above ++ below := by simpa using around'.text
    rw [(Proposal.apply_eq applied).1]
    generalize d'.text = changed at replaced
    cases replaced with
    | inPlace => exact ⟨above, block, below, text, rfl⟩
    | @before _ a b _ split _ =>
      exact ⟨a, block, b ++ below, by rw [text, split, List.append_assoc], by rw [List.append_assoc (a ++ block)]⟩
    | @behind _ a b _ split _ =>
      exact ⟨above ++ a, block, b, by rw [text, split, List.append_assoc], rfl⟩

/-- In the indentation before a mark. -/
theorem Engine.comment_kept_indented :
    let d : Document := ⟨"  # c\n".toList⟩
    let e : Engine := ⟨some (.ofList [.named "a".toList]), none, 200⟩
    ∃ p ∈ e.proposals d 1, (∀ b, 2 ≤ b → b < 6 → ¬p.Drops d b) ∧
      ∃ a block b, d.text = a ++ b ∧ (p.apply d).document.text = a ++ block ++ b := by
  intro d e
  let c : CaretContext := ⟨.key, ⟨1, 1⟩, [], 1⟩
  let p : Proposal := .ofProperty ⟨.named "a".toList, (Closeness.mk 1 1).score⟩ ⟨c.word, 1, ["a".toList], [' ']⟩ none
  have reads : d.caretContext? 1 = some c := by decide
  have reached : d.outline.keyPath? (d.outline.context 1 1) = some [] := by decide +kernel
  have candidates : e.candidates (.ofList [.named "a".toList]) d c = [p] := (candidates_key rfl reached).trans rfl
  have proposed := mem_proposals_of_single (e := e) rfl reads candidates (by decide)
  have around : d.lineAround 1 = .ok ⟨0, "  # c".toList, some .lf⟩ := by decide
  obtain ⟨-, kept, inserts⟩ := comment_kept_iff (n := 2) (t := " c".toList) around rfl proposed
  exact ⟨p, proposed, kept.mpr (by decide), inserts (by decide)⟩

/-- Right before a mark, the key takes its place. -/
theorem Engine.comment_lost :
    let d : Document := ⟨"# c".toList⟩
    let e : Engine := ⟨some (.ofList [.named "a".toList]), none, 200⟩
    d.lineAround 0 = .ok ⟨0, "# c".toList, none⟩ ∧
      ∃ p ∈ e.proposals d 0, p.Drops d 0 ∧ (p.apply d).document.text = "a:  c".toList := by
  intro d e
  let c : CaretContext := ⟨.key, ⟨0, 1⟩, [], 0⟩
  let insertion : PathInsertion := ⟨c.word, 0, ["a".toList], [' ']⟩
  let p : Proposal := .ofProperty ⟨.named "a".toList, (Closeness.mk 1 1).score⟩ insertion none
  have reads : d.caretContext? 0 = some c := by decide
  have candidates : e.candidates (.ofList [.named "a".toList]) d c = [p] := candidates_root rfl rfl
  have proposed := mem_proposals_of_single (e := e) rfl reads candidates (by decide)
  have candidate : p ∈ e.candidates (.ofList [.named "a".toList]) d c := by
    rw [candidates]
    exact List.mem_singleton_self p
  have reuses : insertion.reuses d.outline (d.outline.context 0 0) = false := by decide +kernel
  have drafted : insertion.draft d = .ok ((Draft.empty.delete 0 1).insert 0 "a: ".toList) := by
    rw [PathInsertion.draft, reuses, Outline.context_zero]
    rfl
  have text : d.text = [] ++ [] ++ ['#'] ++ " c".toList := rfl
  obtain ⟨selection, replaced⟩ := Draft.apply_insert_delete text (n := 0) rfl rfl rfl "a: ".toList
  obtain ⟨document, -⟩ := Proposal.apply_eq (p := p) ((Change.apply_path drafted).trans replaced)
  exact ⟨by decide, p, proposed, (drops_iff reads candidate 0).mpr (by decide), congrArg Document.text document⟩

end Offside
