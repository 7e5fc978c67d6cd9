import Offside.Completion.Engine
import Offside.Proofs.Insertions
import Offside.Proofs.KeyPaths

/-! Proposed properties. Wherever a key is typed on a line of its own, applying a proposal leaves a document in which
the property can be reached below the context of the word. -/
namespace Offside

open Text

theorem Shape.valueText_isValue (shape : Shape) : shape.valueText.IsValue ∧ shape.valueText ≠ [] := by
  cases shape <;> decide

/-- The dotted name that goes on with `rest` below a path. -/
def KeyPath.below (path : KeyPath) (rest : Text) : Text := if path.isEmpty then rest else path.dotted ++ '.' :: rest

theorem belowPath_eq (path : KeyPath) (query : Text) : belowPath path query = (path.below query, path.below []) := by
  unfold belowPath KeyPath.below
  split <;> rfl

/-- The proposal for a property that was found, if its id goes on below the path. -/
def proposalBelow (c : CaretContext) (project : Option Text) (path : KeyPath) (found : Match Property) :
    Option Proposal := do
  guard ((path.below []).isPrefixOf found.item.id)
  let rest ← (KeyPath.ofDotted found.item.id).dropStart? path
  guard !rest.isEmpty
  return .ofProperty found ⟨c.word, c.column, rest, found.item.shape.valueText⟩ project

section Below

variable {o : Outline} {c : CaretContext} {path : KeyPath} {catalogue : Catalogue} {project : Option Text} {p : Proposal}
  {found : Match Property}

theorem keyProposals_eq (reached : o.keyPath? (o.context c.word.start c.column) = some path) :
    keyProposals o catalogue c project =
      (catalogue.find (path.below c.query)).filterMap (proposalBelow c project path) := by
  rw [keyProposals, reached]
  dsimp only
  rw [belowPath_eq]
  rfl

theorem exists_of_proposalBelow (proposed : proposalBelow c project path found = some p) :
    ∃ rest, KeyPath.ofDotted found.item.id = path ++ rest ∧ rest ≠ [] ∧
      p = .ofProperty found ⟨c.word, c.column, rest, found.item.shape.valueText⟩ project := by
  simp only [proposalBelow, bind, pure, Option.bind_eq_some_iff, Option.guard_eq_some', exists_const] at proposed
  obtain ⟨-, rest, left, remains, made⟩ := proposed
  have split := List.isPrefixOf?_eq_some_iff_append_eq.mp left
  exact ⟨rest, split.symm, by simpa using remains, (Option.some.inj made).symm⟩

/-- A proposed property lies below the key path of the context, and the proposal inserts what is left of its name. -/
theorem exists_of_mem_keyProposals (member : p ∈ keyProposals o catalogue c project) :
    ∃ found path rest, o.keyPath? (o.context c.word.start c.column) = some path ∧
      KeyPath.ofDotted found.item.id = path ++ rest ∧ rest ≠ [] ∧
      p = .ofProperty found ⟨c.word, c.column, rest, found.item.shape.valueText⟩ project := by
  cases reached : o.keyPath? (o.context c.word.start c.column) with
  | none => simp [keyProposals, reached] at member
  | some path =>
    rw [keyProposals_eq reached] at member
    obtain ⟨found, -, proposed⟩ := List.mem_filterMap.mp member
    obtain ⟨rest, split, nonempty, made⟩ := exists_of_proposalBelow proposed
    exact ⟨found, path, rest, rfl, split, nonempty, made⟩

end Below

/-- A proposed value is one of the property that the key before the caret names, and it takes the place of the word. -/
theorem exists_of_mem_valueProposals {o : Outline} {catalogue : Catalogue} {c : CaretContext} {colon : Nat} {p : Proposal}
    (member : p ∈ valueProposals o catalogue c colon) :
    ∃ key path property value order, o.keyAtColon? colon = some key ∧ o.keyPath? key = some path ∧
      catalogue.get? path.dotted = some property ∧ property.values[order]? = some value ∧
      p = .ofValue value order ((Draft.empty.delete c.word.start c.word.stop).insert c.word.start value) := by
  unfold valueProposals at member
  split at member
  · contradiction
  next property named =>
    simp only [bind, Option.bind_eq_some_iff] at named
    obtain ⟨path, ⟨key, found, reached⟩, known⟩ := named
    obtain ⟨⟨value, order⟩, offered, rfl⟩ := List.mem_map.mp member
    have place := List.mem_zipIdx_iff_getElem?.mp (List.mem_filter.mp offered).1
    exact ⟨key, path, property, value, order, found, reached, known, place, rfl⟩

theorem Engine.exists_candidate {e : Engine} {d : Document} {caret : Nat} {p : Proposal}
    (proposed : p ∈ e.proposals d caret) :
    ∃ catalogue c, e.catalogue = some catalogue ∧ d.caretContext? caret = some c ∧ p ∈ e.candidates catalogue d c := by
  unfold proposals at proposed
  split at proposed
  next catalogue context loaded reads =>
    have sorted := List.mem_of_mem_take proposed
    rw [Proposal.sort, List.mem_mergeSort] at sorted
    exact ⟨catalogue, context, loaded, reads, sorted⟩
  next => contradiction

theorem Engine.mem_candidates {e : Engine} {d : Document} {caret : Nat} {c : CaretContext} {p : Proposal}
    (reads : d.caretContext? caret = some c) (proposed : p ∈ e.proposals d caret) :
    ∃ catalogue, p ∈ e.candidates catalogue d c := by
  obtain ⟨catalogue, context, -, reads', candidate⟩ := exists_candidate proposed
  obtain rfl := Option.some.inj (reads.symm.trans reads')
  exact ⟨catalogue, candidate⟩

theorem Engine.exists_keyProposal {e : Engine} {d : Document} {caret : Nat} {p : Proposal} {found : Match Property}
    (proposed : p ∈ e.proposals d caret) (offer : p.offer = .property found) :
    ∃ catalogue c, e.catalogue = some catalogue ∧ d.caretContext? caret = some c ∧ c.place = .key ∧
      p ∈ keyProposals d.outline catalogue c e.project := by
  obtain ⟨catalogue, c, loaded, reads, candidate⟩ := exists_candidate proposed
  unfold candidates at candidate
  cases place : c.place with
  | key => exact ⟨catalogue, c, loaded, reads, place, by simpa [place] using candidate⟩
  | value colon =>
    rw [place] at candidate
    obtain ⟨_, _, _, _, _, -, -, -, -, rfl⟩ := exists_of_mem_valueProposals candidate
    contradiction
  | elsewhere => simp [place] at candidate

theorem Engine.exists_valueProposal {e : Engine} {d : Document} {caret : Nat} {p : Proposal} {value : Text} {order : Nat}
    (proposed : p ∈ e.proposals d caret) (offer : p.offer = .simple value order) :
    ∃ catalogue c colon, e.catalogue = some catalogue ∧ d.caretContext? caret = some c ∧ c.place = .value colon ∧
      p ∈ valueProposals d.outline catalogue c colon := by
  obtain ⟨catalogue, c, loaded, reads, candidate⟩ := exists_candidate proposed
  unfold candidates at candidate
  cases place : c.place with
  | key =>
    rw [place] at candidate
    obtain ⟨_, _, _, -, -, -, rfl⟩ := exists_of_mem_keyProposals candidate
    contradiction
  | value colon => exact ⟨catalogue, c, colon, loaded, reads, place, by simpa [place] using candidate⟩
  | elsewhere => simp [place] at candidate

section Ranked

variable {e : Engine} {catalogue : Catalogue} {d : Document} {caret : Nat} {c : CaretContext} {p : Proposal}

/-- Candidates that are ranked already are proposed as they are, if there is room for them. -/
theorem Engine.proposals_of_pairwise {candidates : List Proposal} (loaded : e.catalogue = some catalogue)
    (reads : d.caretContext? caret = some c) (all : e.candidates catalogue d c = candidates)
    (ranked : candidates.Pairwise fun a b => (a.compare b).isLE = true) (room : candidates.length ≤ e.limit) :
    e.proposals d caret = candidates := by
  simp only [proposals, loaded, reads, all]
  rw [Proposal.sort, List.mergeSort_of_pairwise ranked, List.take_of_length_le room]

theorem Engine.proposals_of_single (loaded : e.catalogue = some catalogue) (reads : d.caretContext? caret = some c)
    (single : e.candidates catalogue d c = [p]) (room : 0 < e.limit) : e.proposals d caret = [p] :=
  proposals_of_pairwise loaded reads single (List.pairwise_singleton _ _) room

theorem Engine.mem_proposals_of_single (loaded : e.catalogue = some catalogue) (reads : d.caretContext? caret = some c)
    (single : e.candidates catalogue d c = [p]) (room : 0 < e.limit) : p ∈ e.proposals d caret := by
  rw [proposals_of_single loaded reads single room]
  exact List.mem_singleton_self p

end Ranked

section Candidates

variable {e : Engine} {catalogue : Catalogue} {d : Document} {c : CaretContext} {path : KeyPath}

theorem Engine.candidates_key (typing : c.place = .key)
    (reached : d.outline.keyPath? (d.outline.context c.word.start c.column) = some path) :
    e.candidates catalogue d c = (catalogue.find (path.below c.query)).filterMap (proposalBelow c e.project path) := by
  rw [candidates, typing]
  exact keyProposals_eq reached

theorem Engine.candidates_root (typing : c.place = .key) (left : c.column = 0) :
    e.candidates catalogue d c = (catalogue.find c.query).filterMap (proposalBelow c e.project []) := by
  refine @candidates_key e catalogue d c [] typing ?_
  rw [left, Outline.context_zero, Document.outline_eq, Outline.keyPath?_zero]

theorem Engine.candidates_value {colon i : Nat} {property : Property} (place : c.place = .value colon)
    (found : d.outline.keyAtColon? colon = some i) (reached : d.outline.keyPath? i = some path)
    (known : catalogue.get? path.dotted = some property) :
    e.candidates catalogue d c =
      (property.values.zipIdx.filter fun v => (closeness? c.query v.1).isSome).map fun v =>
        .ofValue v.1 v.2 ((Draft.empty.delete c.word.start c.word.stop).insert c.word.start v.1) := by
  rw [candidates, place]
  simp only [valueProposals, found, reached, known, Option.bind_eq_bind, Option.bind_some]

end Candidates

theorem Change.apply_path {insertion : PathInsertion} {d : Document} {draft : Draft} (drafted : insertion.draft d = .ok draft) :
    (Change.path insertion).apply d = draft.apply d := by
  rw [apply, drafted]
  rfl

theorem Proposal.apply_eq {p : Proposal} {d d' : Document} {selection : Option Selection}
    (applied : p.change.apply d = .ok (d', selection)) :
    (p.apply d).document = d' ∧ (p.apply d).returned = selection := by
  rw [apply, applied]
  exact ⟨rfl, rfl⟩

/-- A property that is proposed where a key is typed can be applied: it leaves a caret, and below the context of the
word its path resolves. The context, with all before it, stays as it is. -/
theorem Engine.property_resolves {e : Engine} {d : Document} {caret : Nat} {c : CaretContext} {p : Proposal}
    {found : Match Property} (reads : d.caretContext? caret = some c) (typing : d.TypesKey c) (noReturns : d.NoReturns)
    (spaced : d.outline.Spaced) (proposed : p ∈ e.proposals d caret) (offer : p.offer = .property found)
    (plain : ∀ key ∈ KeyPath.ofDotted found.item.id, key.IsPlainKey) :
    ∃ path rest, d.outline.keyPath? (d.outline.context c.word.start c.column) = some path ∧
      KeyPath.ofDotted found.item.id = path ++ rest ∧ rest ≠ [] ∧ (p.apply d).returned.isSome = true ∧
      d.Resolves (p.apply d).document (d.outline.context c.word.start c.column) rest := by
  obtain ⟨catalogue, candidate⟩ := mem_candidates reads proposed
  have keyed : p ∈ keyProposals d.outline catalogue c e.project := by
    unfold candidates at candidate
    split at candidate
    · exact candidate
    · -- Values are no properties.
      unfold valueProposals at candidate
      split at candidate
      · contradiction
      · obtain ⟨value, -, rfl⟩ := List.mem_map.mp candidate
        contradiction
    · contradiction
  obtain ⟨other, path, rest, reached, split, nonempty, rfl⟩ := exists_of_mem_keyProposals keyed
  obtain rfl : other = found := Offer.property.inj offer
  obtain ⟨upper, q, lower, above, tail, word, behind, typed⟩ := Document.exists_typedOn reads typing
  obtain ⟨valid, written⟩ := Shape.valueText_isValue other.item.shape
  have plainRest : ∀ key ∈ rest, key.IsPlainKey := fun key member => plain key (by simp [split, member])
  obtain ⟨d', selection, applied, resolves⟩ := @PathInsertion.applies
    ⟨c.word, c.column, rest, other.item.shape.valueText⟩ d upper lower q above word behind tail typed noReturns spaced
    plainRest nonempty valid written
  obtain ⟨document, returned⟩ := Proposal.apply_eq (p := .ofProperty other _ e.project) applied
  refine ⟨path, rest, reached, split, nonempty, ?_, ?_⟩
  · rw [returned]
    rfl
  · rw [document]
    exact resolves

/-- The key that is typed exists above: what is missing below it grows there, and the line is cleared. -/
theorem Engine.property_resolves_reused :
    let d : Document := ⟨"a:\n  b: 1\na\nz: 2\n".toList⟩
    let e : Engine := ⟨some (.ofList [.named "a.c".toList]), none, 200⟩
    ∃ p ∈ e.proposals d 11, (p.apply d).returned.isSome = true ∧
      ((p.apply d).document.outline.follow 0 ["a".toList, "c".toList]).2 = [] := by
  intro d e
  let c : CaretContext := ⟨.key, ⟨10, 11⟩, ['a'], 0⟩
  let p : Proposal := .ofProperty ⟨.named "a.c".toList, (Closeness.mk 4 12).score⟩
    ⟨c.word, 0, ["a".toList, "c".toList], [' ']⟩ none
  have reads : d.caretContext? 11 = some c := by decide
  have typing : d.TypesKey c := by
    refine ⟨by decide, by decide, by decide, fun n line => ?_⟩
    obtain rfl : 2 = n := Except.ok.inj ((by decide : d.lineOf 10 = .ok 2).symm.trans line)
    decide
  have root : d.outline.context 10 0 = 0 := Outline.context_zero _ _
  have candidates : e.candidates (.ofList [.named "a.c".toList]) d c = [p] := candidates_root rfl rfl
  have proposed := Engine.mem_proposals_of_single (e := e) rfl reads candidates (by decide)
  obtain ⟨path, rest, reached, split, -, returned, -, resolves⟩ := Engine.property_resolves reads typing (by decide)
    (by decide) proposed rfl (by decide)
  rw [root] at reached resolves
  obtain rfl : [] = path := Option.some.inj ((Outline.keyPath?_zero d.items).symm.trans reached)
  obtain rfl : ["a".toList, "c".toList] = rest := split
  exact ⟨p, proposed, returned, resolves⟩

end Offside
