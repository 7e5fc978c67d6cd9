import Offside.Proofs.Rounding
import Offside.Proofs.Searches
import Offside.Proofs.Sorting

/-! The order of proposals and the cap. Proposals compare in a total preorder whatever their scores are, so that sorting leaves
nothing out of order and the first ones are the best ones. -/
namespace Offside

/-- How properties compare: by score, the higher one first, and then by id. -/
def Match.compare : Match Property → Match Property → Ordering :=
  compareLex (fun a b => compareOn (fun found => found.score.rank) b a) (compareOn fun found => found.item.id)

instance : Std.TransCmp Match.compare := inferInstanceAs (Std.TransCmp (compareLex _ _))

theorem Match.compare_eq_iff {a b : Match Property} : a.compare b = .eq ↔ a.score = b.score ∧ a.item.id = b.item.id := by
  simp only [compare, compareLex, compareOn, Ordering.then_eq_eq, Std.LawfulEqOrd.compare_eq_iff_eq]
  exact and_congr_left fun _ => ⟨fun same => (Binary64.rank_injective same).symm, fun same => by rw [same]⟩

/-- A score that is no number comes before infinity, and zero before negative zero. -/
example : Match.compare ⟨.named [], ⟨0x7ff8000000000000⟩⟩ ⟨.named [], ⟨0x7ff0000000000000⟩⟩ = .lt ∧
    Match.compare ⟨.named [], ⟨0⟩⟩ ⟨.named [], ⟨0x8000000000000000⟩⟩ = .lt := by decide

@[simp] theorem Offer.compare_property (a b : Match Property) : (Offer.property a).compare (.property b) = a.compare b := rfl

@[simp] theorem Offer.compare_simple (v w : Text) (m n : Nat) : (Offer.simple v m).compare (.simple w n) = Ord.compare m n := rfl

@[simp] theorem Offer.compare_property_simple (a : Match Property) (v : Text) (n : Nat) :
    (Offer.property a).compare (.simple v n) = .lt := rfl

@[simp] theorem Offer.compare_simple_property (a : Match Property) (v : Text) (n : Nat) :
    (Offer.simple v n).compare (.property a) = .gt := rfl

instance : Std.TransCmp Offer.compare where
  eq_swap {a b} := by
    cases a <;> cases b <;> simp only [Offer.compare_property, Offer.compare_simple, Offer.compare_property_simple,
      Offer.compare_simple_property]
    · exact Std.OrientedCmp.eq_swap
    · rfl
    · rfl
    · exact Std.OrientedCmp.eq_swap
  isLE_trans {a b c} ab bc := by
    cases a with
    | property a =>
      cases b with
      | property b =>
        cases c with
        | property c => exact @Std.TransCmp.isLE_trans _ Match.compare _ _ _ _ ab bc
        | simple => rfl
      | simple =>
        cases c with
        | property => contradiction
        | simple => rfl
    | simple v m =>
      cases b with
      | property => contradiction
      | simple w n =>
        cases c with
        | property => contradiction
        | simple => exact @Std.TransCmp.isLE_trans _ (Ord.compare (α := Nat)) _ _ _ _ ab bc

namespace Proposal

instance : Std.TransCmp Proposal.compare where
  eq_swap {a b} := @Std.OrientedCmp.eq_swap _ Offer.compare _ a.offer b.offer
  isLE_trans {a b c} := @Std.TransCmp.isLE_trans _ Offer.compare _ a.offer b.offer c.offer

theorem le_trans (a b c : Proposal) (ab : (a.compare b).isLE = true) (bc : (b.compare c).isLE = true) :
    (a.compare c).isLE = true :=
  Std.TransCmp.isLE_trans ab bc

theorem le_total (a b : Proposal) : ((a.compare b).isLE || (b.compare a).isLE) = true := by
  rw [@Std.OrientedCmp.eq_swap _ compare _ b a]
  cases a.compare b <;> rfl

/-- The same proposals from the best to the worst, and those that compare equal in the order that they had. -/
structure Ranked (proposals ranked : List Proposal) : Prop where
  perm : ranked.Perm proposals
  ordered : ranked.Pairwise fun a b => (a.compare b).isLE = true
  stable : ∀ p : Proposal, ranked.filter (p.compare · = .eq) = proposals.filter (p.compare · = .eq)

theorem ranked_sort (proposals : List Proposal) : Ranked proposals (sort proposals) where
  perm := List.mergeSort_perm _ _
  ordered := List.pairwise_mergeSort le_trans le_total proposals
  stable p := by
    refine filter_mergeSort le_trans le_total (fun a b levelA levelB => ?_) proposals
    rw [decide_eq_true_eq] at levelA levelB
    rw [← Std.TransCmp.congr_left levelA, levelB]
    rfl

/-- No proposal that a cap drops is better than one that it keeps. -/
theorem Ranked.not_lt {proposals ranked : List Proposal} (h : Ranked proposals ranked) (limit : Nat) :
    ∀ kept ∈ ranked.take limit, ∀ dropped ∈ ranked.drop limit, dropped.compare kept ≠ .lt := by
  intro kept first dropped later better
  have ordered := h.ordered
  rw [← List.take_append_drop limit ranked, List.pairwise_append] at ordered
  have level := ordered.2.2 kept first dropped later
  rw [@Std.OrientedCmp.eq_swap _ compare _ kept dropped, better] at level
  contradiction

theorem lt_of_isLE {a b : Proposal} (level : (a.compare b).isLE = true) (isA : a.property?.isSome = true)
    (isB : b.property?.isSome = true) (apart : a.label ≠ b.label) : a.compare b = .lt := by
  obtain ⟨offerA, changeA, projectA, selectionA⟩ := a
  obtain ⟨offerB, changeB, projectB, selectionB⟩ := b
  cases offerA with
  | simple => contradiction
  | property foundA =>
    cases offerB with
    | simple => contradiction
    | property foundB =>
      refine (Ordering.isLE_iff_eq_lt_or_eq_eq.mp level).resolve_right fun same => apart ?_
      exact (Match.compare_eq_iff.mp same).2

end Proposal

namespace Engine

variable {catalogue : Catalogue}

theorem pairwise_candidates (e : Engine) (catalogue : Catalogue) (d : Document) (c : CaretContext) :
    (e.candidates catalogue d c).Pairwise fun a b =>
      a.property?.isSome = true → b.property?.isSome = true → a.label ≠ b.label := by
  cases place : c.place with
  | key =>
    rw [candidates, place]
    exact (List.pairwise_map.mp nodup_labels_keyProposals).imp fun apart _ _ => apart
  | value colon =>
    rw [candidates, place]
    refine List.pairwise_of_forall_mem_list fun a memberA b _ isA _ => ?_
    obtain ⟨-, -, -, value, order, -, -, -, -, rfl⟩ := exists_of_mem_valueProposals memberA
    contradiction
  | elsewhere =>
    rw [candidates, place]
    exact .nil

theorem pairwise_ranked {e : Engine} {d : Document} {c : CaretContext} {ranked : List Proposal}
    (h : Proposal.Ranked (e.candidates catalogue d c) ranked) :
    (ranked.filter fun p => p.property?.isSome).Pairwise fun a b => a.compare b = .lt := by
  have apart : ranked.Pairwise fun a b => a.property?.isSome = true → b.property?.isSome = true → a.label ≠ b.label :=
    (h.perm.pairwise_iff fun apart isB isA => (apart isA isB).symm).mpr (e.pairwise_candidates catalogue d c)
  refine List.pairwise_filter.mpr ((h.ordered.and apart).imp fun both isA isB => ?_)
  exact Proposal.lt_of_isLE both.1 isA isB (both.2 isA isB)

/-- The candidates for a caret, of which there are none without a catalogue or where nothing is completed. -/
def candidatesAt (e : Engine) (d : Document) (caret : Nat) : List Proposal :=
  match e.catalogue, d.caretContext? caret with
  | some catalogue, some c => e.candidates catalogue d c
  | _, _ => []

theorem proposals_eq (e : Engine) (d : Document) (caret : Nat) :
    e.proposals d caret = (Proposal.sort (e.candidatesAt d caret)).take e.limit := by
  unfold proposals candidatesAt
  cases e.catalogue with
  | none => simp [Proposal.sort]
  | some catalogue =>
    cases d.caretContext? caret with
    | none => simp [Proposal.sort]
    | some c => rfl

theorem pairwise_sort_candidatesAt (e : Engine) (d : Document) (caret : Nat) :
    ((Proposal.sort (e.candidatesAt d caret)).filter fun p => p.property?.isSome).Pairwise fun a b => a.compare b = .lt := by
  unfold candidatesAt
  cases e.catalogue with
  | none => simp [Proposal.sort]
  | some catalogue =>
    cases d.caretContext? caret with
    | none => simp [Proposal.sort]
    | some c => exact pairwise_ranked (Proposal.ranked_sort _)

/-- Proposals compare in a total preorder, whatever the patterns of their scores; sorting is stable in it; and what a cap leaves of
the proposals for a caret are the first ones of the sorted candidates, with none dropped that is better, and the properties in
strict order. -/
theorem proposals_ranked (e : Engine) (d : Document) (caret : Nat) :
    (∀ a b : Proposal, b.compare a = (a.compare b).swap) ∧
    (∀ a b c : Proposal, (a.compare b).isLE = true → (b.compare c).isLE = true → (a.compare c).isLE = true) ∧
    (∀ a b : Proposal, (a.compare b).isLE = true ∨ (b.compare a).isLE = true) ∧
    (∀ proposals : List Proposal, Proposal.Ranked proposals (Proposal.sort proposals)) ∧
    ∃ ranking : List Proposal,
      (∀ catalogue c, e.catalogue = some catalogue → d.caretContext? caret = some c →
        ranking = Proposal.sort (e.candidates catalogue d c)) ∧
      (e.catalogue = none ∨ d.caretContext? caret = none → ranking = []) ∧
      ∀ limit,
        ({ e with limit } : Engine).proposals d caret = ranking.take limit ∧
        (∀ kept ∈ ranking.take limit, ∀ dropped ∈ ranking.drop limit, dropped.compare kept ≠ .lt) ∧
        ((ranking.take limit).filter fun p => p.property?.isSome).Pairwise fun a b => a.compare b = .lt := by
  have ranked := Proposal.ranked_sort (e.candidatesAt d caret)
  refine ⟨fun a b => Std.OrientedCmp.eq_swap, Proposal.le_trans, fun a b => (Bool.or_eq_true _ _).mp (Proposal.le_total a b),
    Proposal.ranked_sort, Proposal.sort (e.candidatesAt d caret), ?_, ?_, fun limit => ⟨?_, ranked.not_lt limit, ?_⟩⟩
  · intro catalogue c loaded reads
    rw [candidatesAt, loaded, reads]
  · rintro (missing | elsewhere)
    · simp [candidatesAt, missing, Proposal.sort]
    · simp [candidatesAt, elsewhere, Proposal.sort]
  · exact proposals_eq { e with limit } d caret
  · exact (e.pairwise_sort_candidatesAt d caret).sublist ((List.take_sublist limit _).filter _)

/-- Scores that are no numbers come first, and values last. Of two properties a cap of one keeps the closer one and drops the other,
which is not better. -/
theorem proposals_ranked_capped :
    let d : Document := ⟨"port".toList⟩
    let catalogue : Catalogue := .ofList [.named "server.port".toList, .named "port".toList]
    let scored (bits : UInt64) : Proposal := .ofProperty ⟨.named ['a'], ⟨bits⟩⟩ ⟨⟨0, 0⟩, 0, [], []⟩ none
    ((scored 0x7ff8000000000000).compare (.ofValue [] 0 .empty)).isLE = true ∧
    ∃ kept dropped : Proposal, kept.label = "port".toList ∧ dropped.label = "server.port".toList ∧
      (⟨some catalogue, none, 1⟩ : Engine).proposals d 4 = [kept] ∧
      (⟨some catalogue, none, 2⟩ : Engine).proposals d 4 = [kept, dropped] ∧ dropped.compare kept ≠ .lt := by
  intro d catalogue scored
  let proposal (id : Text) (bits : UInt64) : Proposal :=
    .ofProperty ⟨.named id, ⟨bits⟩⟩ ⟨⟨0, 4⟩, 0, KeyPath.ofDotted id, [' ']⟩ none
  let kept := proposal "port".toList 0x3ff0000000000000
  let dropped := proposal "server.port".toList 0x3fd0000000000000
  obtain ⟨-, trans, -, -, ranking, -, -, capped⟩ := proposals_ranked ⟨some catalogue, none, 200⟩ d 4
  have one : (Closeness.mk 16 16).score = ⟨0x3ff0000000000000⟩ := by decide +kernel
  have quarter : (Closeness.mk 11 44).score = ⟨0x3fd0000000000000⟩ := by decide +kernel
  let c : CaretContext := ⟨.key, ⟨0, 4⟩, "port".toList, 0⟩
  have candidates : (⟨some catalogue, none, 2⟩ : Engine).candidates catalogue d c = [kept, dropped] := by
    rw [candidates_root rfl rfl]
    simp only [kept, dropped, proposal, ← one, ← quarter]
    rfl
  have both : (⟨some catalogue, none, 2⟩ : Engine).proposals d 4 = [kept, dropped] :=
    proposals_of_pairwise rfl (by decide) candidates (by decide +kernel) (by decide)
  have first : ranking.take 2 = [kept, dropped] := (capped 2).1.symm.trans both
  have best : ranking.take 1 = [kept] := by simpa [List.take_take] using congrArg (List.take 1) first
  have rest : (ranking.drop 1).take 1 = [dropped] := by simpa [List.drop_take] using congrArg (List.drop 1) first
  have left : dropped ∈ ranking.drop 1 := List.mem_of_mem_take (rest ▸ List.mem_singleton_self dropped)
  refine ⟨trans _ (scored 0x7ff0000000000000) _ (by decide) (by decide), kept, dropped, rfl, rfl, (capped 1).1.trans best, both, ?_⟩
  exact (capped 1).2.1 kept (best ▸ List.mem_singleton_self kept) dropped left

end Engine
end Offside
