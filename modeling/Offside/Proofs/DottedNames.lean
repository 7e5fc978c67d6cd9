import Offside.Proofs.Searches

/-! Key paths and their dotted names. A path whose keys hold no dot is read back from its dotted name, so that the name alone
decides what is proposed below the path. Below a path with a dot in a key, nothing is. -/
namespace Offside

open Text

namespace KeyPath

def Undotted (path : KeyPath) : Prop := ∀ key ∈ path, '.' ∉ key

instance (path : KeyPath) : Decidable path.Undotted := inferInstanceAs (Decidable (∀ key ∈ path, _))

theorem undotted_ofDotted (name : Text) : (ofDotted name).Undotted :=
  fun key member => (proper_ofDotted name key member).2

variable {path path' : KeyPath}

theorem Undotted.eq_of_dotted (undotted : path.Undotted) (undotted' : path'.Undotted) (same : path.dotted = path'.dotted)
    (named : path.dotted ≠ []) : path = path' := by
  have read {path : KeyPath} (undotted : path.Undotted) (named : path.dotted ≠ []) : path.dotted.splitOn '.' = path := by
    refine splitOn_dotted undotted ?_
    rintro rfl
    exact named rfl
  rw [← read undotted named, ← read undotted' (same ▸ named), same]

end KeyPath

/-- Nothing goes on below a path with a dot in a key. -/
theorem proposalBelow_eq_none {c : CaretContext} {project : Option Text} {path : KeyPath} (dotted : ¬path.Undotted)
    (found : Match Property) : proposalBelow c project path found = none := by
  refine Option.eq_none_iff_forall_ne_some.mpr fun p proposed => dotted fun key member => ?_
  obtain ⟨rest, split, -, -⟩ := exists_of_proposalBelow proposed
  exact KeyPath.undotted_ofDotted found.item.id key (by rw [split]; exact List.mem_append_left rest member)

theorem Proposal.map_label_congr {proposals proposals' : List Proposal}
    (same : proposals.map Proposal.offer = proposals'.map Proposal.offer) :
    proposals.map Proposal.label = proposals'.map Proposal.label := by
  have label : Proposal.label = (fun offer => label ⟨offer, .ready .empty, none, none⟩) ∘ Proposal.offer := rfl
  rw [label, ← List.map_map, same, List.map_map]

theorem map_offer_proposalBelow (c c' : CaretContext) (project : Option Text) (path : KeyPath) (found : Match Property) :
    (proposalBelow c project path found).map Proposal.offer = (proposalBelow c' project path found).map Proposal.offer := by
  simp only [proposalBelow, bind, pure, Option.map_bind, Function.comp_def, Option.map_some]
  rfl

theorem map_offer_keyProposals {o o' : Outline} {c c' : CaretContext} {path : KeyPath} (catalogue : Catalogue)
    (project : Option Text) (reached : o.keyPath? (o.context c.word.start c.column) = some path)
    (reached' : o'.keyPath? (o'.context c'.word.start c'.column) = some path) (query : c.query = c'.query) :
    (keyProposals o catalogue c project).map Proposal.offer = (keyProposals o' catalogue c' project).map Proposal.offer := by
  rw [keyProposals_eq reached, keyProposals_eq reached', query, List.map_filterMap, List.map_filterMap]
  exact List.filterMap_congr fun found _ => map_offer_proposalBelow c c' project path found

theorem Proposal.map_offer_sort (proposals : List Proposal) : (sort proposals).map Proposal.offer =
    (proposals.map Proposal.offer).mergeSort fun a b => (a.compare b).isLE :=
  List.map_mergeSort fun _ _ _ _ => rfl

namespace Engine

variable {e : Engine} {d d' : Document} {caret caret' : Nat} {c c' : CaretContext} {path path' : KeyPath}

/-- Below the same path, a query has the same offers. -/
theorem map_offer_proposals (reads : d.caretContext? caret = some c) (reads' : d'.caretContext? caret' = some c')
    (place : c.place = .key) (place' : c'.place = .key) (query : c.query = c'.query)
    (reached : d.outline.keyPath? (d.outline.context c.word.start c.column) = some path)
    (reached' : d'.outline.keyPath? (d'.outline.context c'.word.start c'.column) = some path) :
    (e.proposals d caret).map Proposal.offer = (e.proposals d' caret').map Proposal.offer := by
  unfold proposals
  rw [reads, reads']
  cases e.catalogue with
  | none => rfl
  | some catalogue =>
    simp only [candidates, place, place', List.map_take, Proposal.map_offer_sort]
    rw [map_offer_keyProposals catalogue e.project reached reached' query]

theorem proposals_dotted (reads : d.caretContext? caret = some c) (place : c.place = .key)
    (reached : d.outline.keyPath? (d.outline.context c.word.start c.column) = some path) (dotted : ¬path.Undotted) :
    e.proposals d caret = [] := by
  refine List.eq_nil_iff_forall_not_mem.mpr fun p proposed => ?_
  obtain ⟨catalogue, candidate⟩ := mem_candidates reads proposed
  rw [candidates, place] at candidate
  dsimp only at candidate
  rw [keyProposals_eq reached] at candidate
  obtain ⟨found, -, below⟩ := List.mem_filterMap.mp candidate
  rw [proposalBelow_eq_none dotted] at below
  contradiction

/-- Where keys are typed below paths of one dotted name, a query has the same proposals exactly if both paths have a dot in a
key, or neither has, or nothing is proposed at all. Below a path with a dot in a key nothing is. -/
theorem labels_eq_iff_of_dotted (reads : d.caretContext? caret = some c) (reads' : d'.caretContext? caret' = some c')
    (place : c.place = .key) (place' : c'.place = .key) (query : c.query = c'.query)
    (reached : d.outline.keyPath? (d.outline.context c.word.start c.column) = some path)
    (reached' : d'.outline.keyPath? (d'.outline.context c'.word.start c'.column) = some path')
    (same : path.dotted = path'.dotted) (named : path.dotted ≠ []) :
    ((e.proposals d caret).map Proposal.label = (e.proposals d' caret').map Proposal.label ↔
      (path.Undotted ↔ path'.Undotted) ∨ e.proposals d caret = [] ∧ e.proposals d' caret' = []) ∧
    (¬path.Undotted → e.proposals d caret = []) ∧ (¬path'.Undotted → e.proposals d' caret' = []) := by
  have nothing := proposals_dotted (e := e) reads place reached
  have nothing' := proposals_dotted (e := e) reads' place' reached'
  refine ⟨?_, nothing, nothing'⟩
  by_cases undotted : path.Undotted <;> by_cases undotted' : path'.Undotted
  · obtain rfl := undotted.eq_of_dotted undotted' same named
    have offers := map_offer_proposals (e := e) reads reads' place place' query reached reached'
    exact iff_of_true (Proposal.map_label_congr offers) (.inl Iff.rfl)
  · simp [undotted, undotted', nothing' undotted']
  · simp [undotted, undotted', nothing undotted]
  · simp [undotted, undotted', nothing undotted, nothing' undotted']

/-- Keys that are nested at other columns. -/
theorem labels_eq_nested :
    let d : Document := ⟨"a:\n  b:\n    c".toList⟩
    let d' : Document := ⟨"a:\n    b:\n      c".toList⟩
    let e : Engine := ⟨some (.ofList [.named "a.b.cd".toList, .named "a.c".toList]), none, 200⟩
    (e.proposals d 13).map Proposal.label = ["a.b.cd".toList] ∧ (e.proposals d' 17).map Proposal.label = ["a.b.cd".toList] := by
  intro d d' e
  let c : CaretContext := ⟨.key, ⟨12, 13⟩, ['c'], 4⟩
  let c' : CaretContext := ⟨.key, ⟨16, 17⟩, ['c'], 6⟩
  have reads : d.caretContext? 13 = some c := by decide
  have reads' : d'.caretContext? 17 = some c' := by decide
  have reached : d.outline.keyPath? (d.outline.context 12 4) = some ["a".toList, "b".toList] := by decide +kernel
  have reached' : d'.outline.keyPath? (d'.outline.context 16 6) = some ["a".toList, "b".toList] := by decide +kernel
  have candidates : e.candidates (.ofList [.named "a.b.cd".toList, .named "a.c".toList]) d c =
      [.ofProperty ⟨.named "a.b.cd".toList, (Closeness.mk 20 24).score⟩ ⟨c.word, 4, ["cd".toList], [' ']⟩ none] :=
    (candidates_key rfl reached).trans rfl
  have labels : (e.proposals d 13).map Proposal.label = ["a.b.cd".toList] := by
    rw [proposals_of_single rfl reads candidates (by decide)]
    rfl
  have same := (labels_eq_iff_of_dotted (e := e) reads reads' rfl rfl rfl reached reached' rfl (by decide)).1
  exact ⟨labels, (same.mpr (.inl Iff.rfl)).symm.trans labels⟩

/-- A key that is named with a dot has the dotted name of two nested keys, but not their proposals. -/
theorem labels_ne_dotted :
    let d : Document := ⟨"a:\n  b:\n    ".toList⟩
    let d' : Document := ⟨"a.b:\n  ".toList⟩
    let c : CaretContext := ⟨.key, ⟨12, 12⟩, [], 4⟩
    let c' : CaretContext := ⟨.key, ⟨7, 7⟩, [], 2⟩
    let e : Engine := ⟨some (.ofList [.named "a.b.c".toList]), none, 200⟩
    d.caretContext? 12 = some c ∧ d'.caretContext? 7 = some c' ∧
      (d.outline.keyPath? (d.outline.context c.word.start c.column)).map KeyPath.dotted = some "a.b".toList ∧
      (d'.outline.keyPath? (d'.outline.context c'.word.start c'.column)).map KeyPath.dotted = some "a.b".toList ∧
      (e.proposals d 12).map Proposal.label = ["a.b.c".toList] ∧ e.proposals d' 7 = [] := by
  intro d d' c c' e
  have reads : d.caretContext? 12 = some c := by decide
  have reads' : d'.caretContext? 7 = some c' := by decide
  have reached : d.outline.keyPath? (d.outline.context 12 4) = some ["a".toList, "b".toList] := by decide +kernel
  have reached' : d'.outline.keyPath? (d'.outline.context 7 2) = some ["a.b".toList] := by decide +kernel
  have candidates : e.candidates (.ofList [.named "a.b.c".toList]) d c =
      [.ofProperty ⟨.named "a.b.c".toList, (Closeness.mk 16 20).score⟩ ⟨c.word, 4, ["c".toList], [' ']⟩ none] :=
    (candidates_key rfl reached).trans rfl
  have labels : (e.proposals d 12).map Proposal.label = ["a.b.c".toList] := by
    rw [proposals_of_single rfl reads candidates (by decide)]
    rfl
  have nothing : e.proposals d' 7 = [] := proposals_dotted reads' rfl reached' (by decide)
  exact ⟨reads, reads', congrArg _ reached, congrArg _ reached', labels, nothing⟩

end Engine
end Offside
