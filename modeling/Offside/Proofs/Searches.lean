import Offside.Proofs.NamedPaths
import Offside.Proofs.Proposals
import Offside.Proofs.Weights

/-! Searches. A pattern finds the ids that it is a subsequence of, so that below a key path the same ids are found as if the
query were held against what is left of them. -/
namespace Offside

open Text

namespace Catalogue

variable {catalogue : Catalogue} {pattern : Text}

theorem pairwise_find (catalogue : Catalogue) (pattern : Text) :
    (catalogue.find pattern).Pairwise fun a b => a.item.id ≠ b.item.id := by
  have distinct : catalogue.properties.entries.Pairwise fun a b => a.2.id ≠ b.2.id := by
    refine (List.pairwise_map.mp catalogue.properties.increasing).imp_of_mem fun first second less same => ?_
    rw [catalogue.filed _ first, catalogue.filed _ second] at same
    rw [same] at less
    exact List.lt_irrefl _ less
  refine List.pairwise_filterMap.mpr (distinct.imp fun apart a foundA b foundB => ?_)
  obtain ⟨-, -, rfl⟩ := Option.map_eq_some_iff.mp foundA
  obtain ⟨-, -, rfl⟩ := Option.map_eq_some_iff.mp foundB
  exact apart

end Catalogue

namespace KeyPath

variable {path : KeyPath} {rest : Text}

end KeyPath

section Below

variable {o : Outline} {c : CaretContext} {path : KeyPath} {catalogue : Catalogue} {project : Option Text} {p : Proposal}
  {found : Match Property}

theorem nodup_labels_keyProposals : ((keyProposals o catalogue c project).map Proposal.label).Nodup := by
  cases reached : o.keyPath? (o.context c.word.start c.column) with
  | none => simp [keyProposals, reached]
  | some path =>
    rw [keyProposals_eq reached]
    refine List.pairwise_map.mpr (List.pairwise_filterMap.mpr ?_)
    refine (catalogue.pairwise_find _).imp fun apart a proposedA b proposedB => ?_
    obtain ⟨_, -, -, rfl⟩ := exists_of_proposalBelow proposedA
    obtain ⟨_, -, -, rfl⟩ := exists_of_proposalBelow proposedB
    exact apart

end Below

namespace Engine

variable {e : Engine} {d : Document} {caret : Nat} {c : CaretContext} {path : KeyPath} {catalogue : Catalogue}

end Engine

end Offside
