import Offside.Proofs.Contexts
import Offside.Proofs.Grafts
import Offside.Proofs.Paths

/-! What lies below a node. A key or an entry stays open through everything below it, and nothing else lies in between,
so the nodes below it are a run of numbers behind its own. -/
namespace Offside.Outline

section Lineages

variable {o : Outline} {top i j p : Nat} {n : Node}

theorem below_iff_of_parent (found : o.nodes[i]? = some n) (parent : n.parent = some p) :
    o.Below top i ↔ top = p ∨ o.Below top p := by
  constructor
  · intro below
    cases below with
    | child found' parent' =>
      obtain rfl := Option.some.inj (found.symm.trans found')
      exact .inl (Option.some.inj (parent'.symm.trans parent))
    | deeper found' parent' below =>
      obtain rfl := Option.some.inj (found.symm.trans found')
      obtain rfl := Option.some.inj (parent'.symm.trans parent)
      exact .inr below
  · rintro (rfl | below)
    · exact .child found parent
    · exact .deeper found parent below

theorem Below.trans (outer : o.Below top i) (inner : o.Below i j) : o.Below top j := by
  induction inner with
  | child found parent => exact .deeper found parent outer
  | deeper found parent _ ih => exact .deeper found parent ih

theorem Below.exists_child (h : o.Below top i) :
    ∃ c x, o.nodes[c]? = some x ∧ x.parent = some top ∧ (i = c ∨ o.Below c i) := by
  induction h with
  | child found parent => exact ⟨_, _, found, parent, .inl rfl⟩
  | deeper found parent _ ih =>
    obtain ⟨c, x, found', parent', rfl | below⟩ := ih
    · exact ⟨_, x, found', parent', .inr (.child found parent)⟩
    · exact ⟨c, x, found', parent', .inr (.deeper found parent below)⟩

theorem Below.exists_node (h : o.Below top i) : ∃ n, o.nodes[i]? = some n := by
  cases h with
  | child found => exact ⟨_, found⟩
  | deeper found => exact ⟨_, found⟩

theorem openAt_succ_iff (found : o.nodes[i]? = some n) (above : top < i) {x : Node} :
    o.OpenAt (i + 1) top x ↔ o.OpenAt i top x ∧ (n.isGap = false → x.holds n = true) := by
  constructor
  · intro opened
    exact ⟨opened.of_le above (Nat.le_succ i), opened.between i n above (Nat.lt_succ_self i) found⟩
  · rintro ⟨opened, holds⟩
    refine ⟨opened.found, opened.opener, Nat.lt_succ_of_lt above, fun k y lower upper found' visible => ?_⟩
    rcases Nat.lt_or_eq_of_le (Nat.le_of_lt_succ upper) with earlier | rfl
    · exact opened.between k y lower earlier found' visible
    · obtain rfl := Option.some.inj (found.symm.trans found')
      exact holds visible

end Lineages

variable {items : List Item} {top i p : Nat} {n : Node}

/-- The container of a node is the latest node above it that is still open behind it. -/
theorem latest_openBehind (proper : Rootless items) (found : (ofItems items).nodes[i]? = some n)
    (positive : 0 < i) : ∃ p, n.parent = some p ∧
      Latest (fun m => m < i ∧ ∃ x, (ofItems items).OpenAt (i + 1) m x) p := by
  cases visible : n.isGap with
  | false =>
    obtain ⟨p, parent, latest⟩ := latest_parent proper found positive visible
    refine ⟨p, parent, latest.congr fun m => ?_⟩
    constructor
    · rintro ⟨x, opened, holds⟩
      exact ⟨opened.above, x, (openAt_succ_iff found opened.above).mpr ⟨opened, fun _ => holds⟩⟩
    · rintro ⟨above, x, opened⟩
      obtain ⟨opened, holds⟩ := (openAt_succ_iff found above).mp opened
      exact ⟨x, opened, holds visible⟩
  | true =>
    obtain ⟨k, item, rfl, -, rfl⟩ := exists_item_of_pos positive found
    have gap : item.kind.column? = none := by
      cases stands : item.kind.column? with
      | none => rfl
      | some c => simp [Node.isGap, Kind.isGap_of_column? stands] at visible
    refine ⟨_, rfl, (latest_of_gap proper k gap).congr fun m => ?_⟩
    constructor
    · rintro ⟨x, opened⟩
      refine ⟨opened.above, x, (openAt_succ_iff found opened.above).mpr ⟨opened, fun seen => ?_⟩⟩
      exact absurd (visible.symm.trans seen) Bool.noConfusion
    · rintro ⟨above, x, opened⟩
      exact ⟨x, ((openAt_succ_iff found above).mp opened).1⟩

theorem getElem?_pred_of_pos (found : (ofItems items).nodes[i]? = some n) (positive : 0 < i) :
    items[i - 1]? = some n.toItem := by
  obtain ⟨k, item, rfl, at', rfl⟩ := exists_item_of_pos positive found
  exact at'

theorem pos_of_column? (found : (ofItems items).nodes[i]? = some n) {column : Nat} (stands : n.column? = some column) :
    0 < i := by
  refine Nat.pos_of_ne_zero ?_
  rintro rfl
  obtain rfl := Option.some.inj ((getElem?_ofItems_zero items).symm.trans found)
  contradiction

theorem exists_parent (found : (ofItems items).nodes[i]? = some n) (positive : 0 < i) :
    ∃ p x, n.parent = some p ∧ p < i ∧ (ofItems items).nodes[p]? = some x := by
  obtain ⟨k, item, rfl, -, rfl⟩ := exists_item_of_pos positive found
  have less := parent_lt found rfl
  obtain ⟨bound, -⟩ := List.getElem?_eq_some_iff.mp found
  exact ⟨_, _, rfl, less, List.getElem?_eq_getElem (Nat.lt_trans less bound)⟩

theorem openAt_of_parent (proper : Rootless items) (found : (ofItems items).nodes[i]? = some n)
    (parent : n.parent = some p) (inner : 0 < p) : ∃ x, (ofItems items).OpenAt (i + 1) p x := by
  have positive : 0 < i := Nat.lt_of_le_of_lt (Nat.zero_le p) (parent_lt found parent)
  obtain ⟨q, eq, latest⟩ := latest_openBehind proper found positive
  obtain rfl := Option.some.inj (parent.symm.trans eq)
  rcases latest with ⟨⟨-, opened⟩, -⟩ | ⟨rfl, -⟩
  · exact opened
  · exact absurd inner (Nat.lt_irrefl 0)

theorem isContainer_of_parent (proper : Rootless items) (found : (ofItems items).nodes[i]? = some n)
    (parent : n.parent = some p) {x : Node} (container : (ofItems items).nodes[p]? = some x) :
    x.isContainer = true := by
  rcases Nat.eq_zero_or_pos p with rfl | inner
  · obtain rfl := Option.some.inj ((getElem?_ofItems_zero items).symm.trans container)
    rfl
  · obtain ⟨y, opened⟩ := openAt_of_parent proper found parent inner
    obtain rfl := Option.some.inj (container.symm.trans opened.found)
    exact opened.opener.1

theorem OpenAt.le_parent (proper : Rootless items) {x : Node} (opened : (ofItems items).OpenAt (i + 1) top x)
    (above : top < i) (found : (ofItems items).nodes[i]? = some n) (parent : n.parent = some p) : top ≤ p := by
  obtain ⟨q, eq, latest⟩ := latest_openBehind proper found (Nat.lt_of_le_of_lt (Nat.zero_le top) above)
  obtain rfl := Option.some.inj (parent.symm.trans eq)
  rcases latest with ⟨-, greatest⟩ | ⟨-, none⟩
  · exact greatest top ⟨above, x, opened⟩
  · exact absurd ⟨above, x, opened⟩ (none top)

theorem Below.lt (h : (ofItems items).Below top i) : top < i := by
  induction h with
  | child found parent => exact parent_lt found parent
  | deeper found parent _ ih => exact Nat.lt_trans ih (parent_lt found parent)

theorem Below.le_parent (h : (ofItems items).Below top i) (found : (ofItems items).nodes[i]? = some n)
    (parent : n.parent = some p) : top ≤ p := by
  rcases (below_iff_of_parent found parent).mp h with rfl | below
  · exact Nat.le_refl _
  · exact Nat.le_of_lt below.lt

/-- Everything lies below the root, and below another node lies what that one is still open behind. -/
theorem below_iff (proper : Rootless items) (found : (ofItems items).nodes[i]? = some n) :
    (ofItems items).Below top i ↔ top < i ∧ (top = 0 ∨ ∃ x, (ofItems items).OpenAt (i + 1) top x) := by
  constructor
  · intro below
    refine ⟨below.lt, ?_⟩
    clear found
    induction below with
    | child found parent =>
      rcases Nat.eq_zero_or_pos top with root | inner
      · exact .inl root
      · exact .inr (openAt_of_parent proper found parent inner)
    | deeper found parent below ih =>
      rcases ih with root | ⟨x, outer⟩
      · exact .inl root
      · have less := below.lt
        obtain ⟨y, opened⟩ := openAt_of_parent proper found parent (Nat.lt_of_le_of_lt (Nat.zero_le top) less)
        have holds := outer.between _ y less (Nat.lt_succ_self _) opened.found opened.isGap
        exact .inr ⟨x, (outer.of_le less (Nat.le_succ _)).trans holds opened⟩
  · rintro ⟨above, outer⟩
    induction i using Nat.strong_induction_on generalizing n with
    | _ i ih =>
      obtain ⟨p, y, parent, less, container⟩ := exists_parent found (Nat.lt_of_le_of_lt (Nat.zero_le top) above)
      have le : top ≤ p := by
        rcases outer with rfl | ⟨x, opened⟩
        · exact Nat.zero_le p
        · exact opened.le_parent proper above found parent
      rcases Nat.eq_or_lt_of_le le with rfl | further
      · exact .child found parent
      · refine .deeper found parent (ih p less container further ?_)
        rcases outer with root | ⟨x, opened⟩
        · exact .inl root
        · exact .inr ⟨x, opened.of_le (Nat.lt_succ_of_lt further) (Nat.succ_le_succ (Nat.le_of_lt less))⟩

/-- Below a container lies what it holds, up to the first node that it does not hold. -/
theorem below_iff_holds (proper : Rootless items) {x : Node} (found : (ofItems items).nodes[top]? = some x)
    (container : x.isContainer = true) (at' : (ofItems items).nodes[i]? = some n) : (ofItems items).Below top i ↔
      top < i ∧ ∀ k y, top < k → k ≤ i → (ofItems items).nodes[k]? = some y → y.isGap = false → x.holds y = true := by
  rw [below_iff proper at']
  refine and_congr_right fun above => ⟨?_, fun held => ?_⟩
  · rintro (rfl | ⟨z, opened⟩) k y lower upper other seen
    · obtain rfl := Option.some.inj ((getElem?_ofItems_zero items).symm.trans found)
      rfl
    · obtain rfl := Option.some.inj (found.symm.trans opened.found)
      exact opened.between k y lower (Nat.lt_succ_of_le upper) other seen
  · rcases Nat.eq_zero_or_pos top with root | positive
    · exact .inl root
    · exact .inr ⟨x, found, ⟨container, ne_root_of_pos proper positive found⟩, Nat.lt_succ_of_lt above,
        fun k y lower upper => held k y lower (Nat.le_of_lt_succ upper)⟩

theorem below_root (proper : Rootless items) (found : (ofItems items).nodes[i]? = some n) (positive : 0 < i) :
    (ofItems items).Below 0 i :=
  (below_iff proper found).mpr ⟨positive, .inl rfl⟩

theorem Below.of_between (proper : Rootless items) (h : (ofItems items).Below top i) {k : Nat} (lower : top < k)
    (upper : k ≤ i) : (ofItems items).Below top k := by
  obtain ⟨n, found⟩ := h.exists_node
  obtain ⟨bound, -⟩ := List.getElem?_eq_some_iff.mp found
  have between := List.getElem?_eq_getElem (Nat.lt_of_le_of_lt upper bound)
  obtain ⟨-, outer⟩ := (below_iff proper found).mp h
  refine (below_iff proper between).mpr ⟨lower, ?_⟩
  rcases outer with root | ⟨x, opened⟩
  · exact .inl root
  · exact .inr ⟨x, opened.of_le (Nat.lt_succ_of_lt lower) (Nat.succ_le_succ upper)⟩

end Offside.Outline
