import Offside.Proofs.Proposals

/-! Proposals that are applied again and again, each time to what the document holds by then. What an application does is
the same however many came before it, but only the first selection of them all is remembered. -/
namespace Offside.Proposal

/-- Applies the proposal to one document after the other. -/
def applications (p : Proposal) : List Document → List Application
  | [] => []
  | doc :: docs => p.apply doc :: (p.apply doc).proposal.applications docs

def after (p : Proposal) (docs : List Document) : Proposal := docs.foldl (fun p doc => (p.apply doc).proposal) p

variable {p q : Proposal}

theorem apply_congr (same : p.change = q.change) (doc : Document) :
    (p.apply doc).document = (q.apply doc).document ∧ (p.apply doc).returned = (q.apply doc).returned := by
  rw [apply, apply, same]
  cases q.change.apply doc <;> exact ⟨rfl, rfl⟩

theorem change_apply (p : Proposal) (doc : Document) : (p.apply doc).proposal.change = p.change := by
  rw [apply]
  cases p.change.apply doc <;> rfl

/-- A selection that is remembered stays; otherwise the one that was returned is taken over, if there is one. -/
theorem selection_apply (p : Proposal) (doc : Document) :
    (p.apply doc).proposal.selection = p.selection.or (p.apply doc).returned := by
  rw [apply]
  cases p.change.apply doc with
  | error e => simp
  | ok result => rfl

theorem applications_congr (same : p.change = q.change) (docs : List Document) :
    (p.applications docs).map (fun a => (a.document, a.returned)) =
      docs.map fun doc => ((q.apply doc).document, (q.apply doc).returned) := by
  induction docs generalizing p with
  | nil => rfl
  | cons doc docs ih =>
    obtain ⟨document, returned⟩ := apply_congr same doc
    simp [applications, document, returned, ih ((change_apply p doc).trans same)]

theorem selection_after (p : Proposal) (docs : List Document) :
    (p.after docs).selection = p.selection.or ((p.applications docs).findSome? Application.returned) := by
  induction docs generalizing p with
  | nil => simp [after, applications]
  | cons doc docs ih =>
    calc (p.after (doc :: docs)).selection
      _ = ((p.apply doc).proposal.after docs).selection := rfl
      _ = (p.selection.or (p.apply doc).returned).or
            (((p.apply doc).proposal.applications docs).findSome? Application.returned) := by rw [ih, selection_apply]
      _ = p.selection.or ((p.applications (doc :: docs)).findSome? Application.returned) := by
        rw [Option.or_assoc, applications, List.findSome?_cons]
        cases (p.apply doc).returned <;> rfl

/-- Whatever a proposal is applied to, it keeps the selection that the first of its applications has returned. -/
theorem selection_first (p : Proposal) (docs : List Document) :
    (p.applications docs).map (fun a => (a.document, a.returned)) =
        docs.map (fun doc => ((p.apply doc).document, (p.apply doc).returned)) ∧
      (p.after docs).selection = p.selection.or ((p.applications docs).findSome? Application.returned) :=
  ⟨applications_congr rfl docs, selection_after p docs⟩

end Proposal

/-- The selection of a second application, to another text, is not remembered. -/
theorem Engine.selection_stale :
    let e : Engine := ⟨some (.ofList [.named "a".toList]), none, 200⟩
    let docs : List Document := [⟨[]⟩, ⟨"\na: 1".toList⟩]
    ∃ p ∈ e.proposals ⟨[]⟩ 0, (p.applications docs).map Proposal.Application.returned = [some (.caret 3), some (.caret 4)] ∧
      (p.after docs).selection = some (.caret 3) := by
  intro e docs
  let insertion : PathInsertion := ⟨⟨0, 0⟩, 0, ["a".toList], [' ']⟩
  let p : Proposal := .ofProperty ⟨.named "a".toList, (Closeness.mk 1 1).score⟩ insertion none
  have proposed : p ∈ e.proposals ⟨[]⟩ 0 :=
    mem_proposals_of_single (c := ⟨.key, ⟨0, 0⟩, [], 0⟩) rfl (by decide) (candidates_root rfl rfl) (by decide)
  have first : insertion.draft ⟨[]⟩ = .ok (Draft.empty.insert 0 "a: ".toList) := by decide +kernel
  have second : insertion.draft ⟨"\na: 1".toList⟩ = .ok (Draft.empty.placeCaret 4) := by decide +kernel
  have new := (Proposal.apply_eq (p := p) ((Change.apply_path first).trans (Draft.apply_insert (by decide) _))).2
  have again := (Proposal.apply_eq (p := p) ((Change.apply_path second).trans (Draft.apply_placeCaret (by decide)))).2
  have returned : (p.applications docs).map Proposal.Application.returned = [some (.caret 3), some (.caret 4)] := by
    have each := congrArg (List.map Prod.snd) (Proposal.applications_congr (p := p) rfl docs)
    simp only [List.map_map, docs, List.map_cons, List.map_nil, Function.comp_def, new, again] at each
    exact each
  have kept : (p.applications docs).findSome? Proposal.Application.returned = some (.caret 3) := by
    rw [← Function.id_comp Proposal.Application.returned, ← List.findSome?_map, returned]
    rfl
  exact ⟨p, proposed, returned, (Proposal.selection_after p docs).trans kept⟩

end Offside
