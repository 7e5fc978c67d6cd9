import Offside.Completion.Proposal

/-!
The order of proposals, best first: properties before plain values, properties by score and then by id, values by
their place. Scores compare in the total order of doubles.
-/
namespace Offside

def Offer.compare : Offer → Offer → Ordering
  | .property a, .property b =>
    (Ord.compare b.score.rank a.score.rank).then (Ord.compare a.item.id b.item.id)
  | .simple _ a, .simple _ b => Ord.compare a b
  | .property _, .simple .. => .lt
  | .simple .., .property _ => .gt

namespace Proposal

def compare (a b : Proposal) : Ordering := a.offer.compare b.offer

/-- Proposals that compare equal keep their order. -/
def sort (proposals : List Proposal) : List Proposal := proposals.mergeSort fun a b => (a.compare b).isLE

end Proposal
end Offside
