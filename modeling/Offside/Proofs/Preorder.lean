import Mathlib.Data.List.Sort
import Offside.Proofs.Descendants

/-! The tree that an outline stands for. Every node but the root is listed once below one container, left of it, and whoever
walks down the tree meets the nodes in the order of their numbers. -/
namespace Offside.Outline

/-- Node `i` and what lies below it, a node before its children. -/
def preorder (o : Outline) (i : Nat) : List Nat :=
  i :: (o.children i).attach.flatMap fun child => o.preorder child.1.2
termination_by o.nodes.length - i
decreasing_by
  have : i < child.1.2 ∧ child.1.2 < o.nodes.length := bounds_of_mem_children child.2
  omega

theorem preorder_eq (o : Outline) (i : Nat) :
    o.preorder i = i :: (o.children i).flatMap fun child => o.preorder child.2 := by
  rw [preorder]
  conv_rhs => rw [← List.attach_map_subtype_val (o.children i), List.flatMap_map]

variable {items : List Item} {i j p : Nat} {n x : Node}

theorem mem_preorder_iff : j ∈ (ofItems items).preorder i ↔ j = i ∨ (ofItems items).Below i j := by
  induction i using preorder.induct (ofItems items) with
  | case1 i ih =>
    rw [preorder_eq, List.mem_cons, List.mem_flatMap]
    refine or_congr_right ⟨?_, fun below => ?_⟩
    · rintro ⟨⟨x, c⟩, member, inside⟩
      obtain ⟨found, -, parent⟩ := mem_children_iff.mp member
      rcases (ih ⟨_, member⟩).mp inside with rfl | below
      · exact .child found parent
      · exact (Below.child found parent).trans below
    · obtain ⟨c, x, found, parent, inside⟩ := below.exists_child
      have member : (x, c) ∈ (ofItems items).children i := mem_children_iff.mpr ⟨found, parent_lt found parent, parent⟩
      exact ⟨(x, c), member, (ih ⟨_, member⟩).mpr inside⟩

theorem pairwise_preorder (proper : Rootless items) (i : Nat) : ((ofItems items).preorder i).Pairwise (· < ·) := by
  induction i using preorder.induct (ofItems items) with
  | case1 i ih =>
    rw [preorder_eq, List.pairwise_cons, List.pairwise_flatMap]
    refine ⟨fun j member => ?_, fun child member => ih ⟨child, member⟩, ?_⟩
    · obtain ⟨⟨x, c⟩, member, inside⟩ := List.mem_flatMap.mp member
      obtain ⟨found, -, parent⟩ := mem_children_iff.mp member
      have outer := Below.child found parent
      rcases mem_preorder_iff.mp inside with rfl | below
      · exact outer.lt
      · exact (outer.trans below).lt
    · refine ((ofItems items).pairwise_children i).imp_of_mem ?_
      rintro ⟨x, a⟩ ⟨y, b⟩ memberA memberB less j insideA k insideB
      obtain ⟨-, above, -⟩ := mem_children_iff.mp memberA
      obtain ⟨found, -, parent⟩ := mem_children_iff.mp memberB
      have early : j < b := by
        rcases mem_preorder_iff.mp insideA with rfl | below
        · exact less
        · by_contra late
          have := (below.of_between proper less (Nat.le_of_not_lt late)).le_parent found parent
          omega
      rcases mem_preorder_iff.mp insideB with rfl | below
      · exact early
      · exact Nat.lt_trans early below.lt

/-- The walk from the root meets every node, in the order of their numbers. -/
theorem preorder_zero (proper : Rootless items) :
    (ofItems items).preorder 0 = List.range (ofItems items).nodes.length := by
  refine (pairwise_preorder proper 0).eq_of_mem_iff List.pairwise_lt_range fun j => ?_
  rw [mem_preorder_iff, List.mem_range]
  constructor
  · rintro (rfl | below)
    · simp
    · obtain ⟨n, found⟩ := below.exists_node
      exact (List.getElem?_eq_some_iff.mp found).1
  · intro bound
    rcases Nat.eq_zero_or_pos j with rfl | positive
    · exact .inl rfl
    · exact .inr (below_root proper (List.getElem?_eq_getElem bound) positive)

theorem column_lt_of_parent (proper : Rootless items) (found : (ofItems items).nodes[i]? = some n)
    (parent : n.parent = some p) (container : (ofItems items).nodes[p]? = some x) {a b : Nat} (left : x.column? = some a)
    (right : n.column? = some b) : a < b := by
  have inner := pos_of_column? container left
  obtain ⟨y, opened⟩ := openAt_of_parent proper found parent inner
  obtain rfl := Option.some.inj (container.symm.trans opened.found)
  obtain ⟨-, holds⟩ := (openAt_succ_iff found (parent_lt found parent)).mp opened
  exact (Node.holds_of_column? left right).mp (holds (Kind.isGap_of_column? right))

theorem count_children (found : (ofItems items).nodes[j]? = some n) (parent : n.parent = some p) (i : Nat) :
    (((ofItems items).children i).map Prod.snd).count j = if i = p then 1 else 0 := by
  have nodup : (((ofItems items).children i).map Prod.snd).Nodup :=
    (List.pairwise_map.mpr ((ofItems items).pairwise_children i)).imp Nat.ne_of_lt
  have member : j ∈ ((ofItems items).children i).map Prod.snd ↔ i = p := by
    rw [List.mem_map]
    constructor
    · rintro ⟨⟨x, c⟩, member, rfl⟩
      obtain ⟨at', -, own⟩ := mem_children_iff.mp member
      obtain rfl := Option.some.inj (found.symm.trans at')
      exact Option.some.inj (own.symm.trans parent)
    · rintro rfl
      exact ⟨(n, j), mem_children_iff.mpr ⟨found, parent_lt found parent, parent⟩, rfl⟩
  rw [nodup.count]
  simp only [member]

end Offside.Outline
