import Offside.Proofs.Blocks
import Offside.Proofs.Descendants

/-! The ends of blocks, two ways. The block of a node is what lies below it, so that it ends with the last of that. One sweep
over the nodes from the last one up, which carries the end of each over to its container, finds the same ends. -/
namespace Offside

/-- What `takeWhile` keeps of the elements that `p` selects has nothing before it that `p` selects and `q` refuses. -/
theorem mem_takeWhile_filter_iff {α : Type} {p q : α → Bool} {list : List α} {x : α} :
    x ∈ (list.filter p).takeWhile q ↔
      ∃ a b, list = a ++ x :: b ∧ p x = true ∧ q x = true ∧ ∀ y ∈ a, p y = true → q y = true := by
  constructor
  · intro member
    obtain ⟨before, behind, split⟩ := List.append_of_mem member
    have whole : list.filter p = before ++ (x :: (behind ++ (list.filter p).dropWhile q)) := by
      conv_lhs => rw [← List.takeWhile_append_dropWhile (p := q) (l := list.filter p), split]
      rw [List.append_assoc, List.cons_append]
    obtain ⟨a, rest, rfl, front, back⟩ := List.filter_eq_append_iff.mp whole
    obtain ⟨gaps, b, rfl, refused, kept, -⟩ := List.filter_eq_cons_iff.mp back
    refine ⟨a ++ gaps, b, by rw [List.append_assoc], kept, List.mem_takeWhile_imp member, fun y inside keeps => ?_⟩
    rcases List.mem_append.mp inside with early | gap
    · have selected : y ∈ before := front ▸ List.mem_filter.mpr ⟨early, keeps⟩
      exact List.mem_takeWhile_imp (split ▸ List.mem_append_left _ selected)
    · exact absurd keeps (refused y gap)
  · rintro ⟨a, b, rfl, kept, accepted, front⟩
    rw [List.filter_append, List.filter_cons_of_pos kept, List.takeWhile_append_of_pos, List.takeWhile_cons_of_pos accepted]
    · exact List.mem_append_right _ List.mem_cons_self
    · intro y member
      obtain ⟨inside, keeps⟩ := List.mem_filter.mp member
      exact front y inside keeps

namespace Outline

variable {items : List Item} {i p m : Nat} {n x : Node}

theorem mem_block_iff (proper : Rootless items) (found : (ofItems items).nodes[i]? = some n)
    (container : n.isContainer = true) : x ∈ (ofItems items).block i ↔
      ∃ j, (ofItems items).nodes[j]? = some x ∧ x.isGap = false ∧ (ofItems items).Below i j := by
  obtain ⟨bound, rfl⟩ := List.getElem?_eq_some_iff.mp found
  rw [block, List.drop_eq_getElem_cons bound]
  dsimp only
  rw [if_pos container, mem_takeWhile_filter_iff]
  constructor
  · rintro ⟨a, b, split, visible, held, front⟩
    have at' (k : Nat) : (ofItems items).nodes[i + 1 + k]? = (a ++ x :: b)[k]? := by rw [← split, List.getElem?_drop]
    have node : (ofItems items).nodes[i + 1 + a.length]? = some x := by rw [at']; simp
    refine ⟨i + 1 + a.length, node, by simpa using visible, (below_iff_holds proper found container node).mpr ⟨by omega, ?_⟩⟩
    intro k y lower upper other seen
    obtain ⟨k, rfl⟩ := Nat.exists_eq_add_of_le (Nat.succ_le_of_lt lower)
    rw [Nat.succ_eq_add_one, at'] at other
    rcases Nat.lt_or_ge k a.length with early | late
    · rw [List.getElem?_append_left early] at other
      exact front y (List.mem_of_getElem? other) (by simpa using seen)
    · obtain rfl : k = a.length := by omega
      obtain rfl : x = y := by simpa using other
      exact held
  · rintro ⟨j, node, visible, below⟩
    obtain ⟨above, held⟩ := (below_iff_holds proper found container node).mp below
    obtain ⟨within, rfl⟩ := List.getElem?_eq_some_iff.mp node
    have later : (ofItems items).nodes.drop j = ((ofItems items).nodes.drop (i + 1)).drop (j - (i + 1)) := by
      rw [List.drop_drop, Nat.add_sub_cancel' above]
    refine ⟨((ofItems items).nodes.drop (i + 1)).take (j - (i + 1)), (ofItems items).nodes.drop (j + 1), ?_,
      by simpa using visible, held j _ above (Nat.le_refl j) node visible, fun y member seen => ?_⟩
    · rw [← List.drop_eq_getElem_cons within, later, List.take_append_drop]
    · obtain ⟨k, at'⟩ := List.mem_iff_getElem?.mp member
      rw [List.getElem?_take, List.getElem?_drop] at at'
      split at at'
      next early => exact held (i + 1 + k) y (by omega) (by omega) at' (by simpa using seen)
      next => contradiction

/-- The end of node `i`, and the ends of what lies below it, gaps left out. -/
def ends (o : Outline) (i : Nat) : Set Nat :=
  {stop | ∃ j x, o.nodes[j]? = some x ∧ (j = i ∨ o.Below i j ∧ x.isGap = false) ∧ x.stop = stop}

theorem not_below (proper : Rootless items) (found : (ofItems items).nodes[i]? = some n) (closed : n.isContainer = false)
    (j : Nat) : ¬(ofItems items).Below i j := by
  intro below
  obtain ⟨c, x, found', parent, -⟩ := below.exists_child
  exact absurd ((isContainer_of_parent proper found' parent found).symm.trans closed) Bool.noConfusion

theorem isGreatest_blockEnd (proper : Rootless items) (found : (ofItems items).nodes[i]? = some n) :
    IsGreatest ((ofItems items).ends i) ((ofItems items).blockEnd i) := by
  have inside (x : Node) : x ∈ (ofItems items).block i ↔
      ∃ j, (ofItems items).nodes[j]? = some x ∧ (ofItems items).Below i j ∧ x.isGap = false := by
    cases container : n.isContainer with
    | true =>
      rw [mem_block_iff proper found container]
      simp only [and_comm (a := x.isGap = false)]
    | false =>
      obtain ⟨bound, rfl⟩ := List.getElem?_eq_some_iff.mp found
      rw [block, List.drop_eq_getElem_cons bound]
      simp [container, not_below proper found container]
  have same : (ofItems items).ends i = {stop | n.stop = stop ∨ ∃ x ∈ (ofItems items).block i, x.stop = stop} := by
    ext stop
    constructor
    · rintro ⟨j, x, at', rfl | below, rfl⟩
      · obtain rfl := Option.some.inj (found.symm.trans at')
        exact .inl rfl
      · exact .inr ⟨x, (inside x).mpr ⟨j, at', below⟩, rfl⟩
    · rintro (rfl | ⟨x, member, rfl⟩)
      · exact ⟨i, n, found, .inl rfl, rfl⟩
      · obtain ⟨j, at', below⟩ := (inside x).mp member
        exact ⟨j, x, at', .inr below, rfl⟩
  rw [same, blockEnd, found, Option.map_some, Option.getD_some]
  exact isGreatest_foldl _ _

/-- The container of node `m`, unless the node is a gap. -/
def host? (o : Outline) (m : Nat) : Option Nat := o.nodes[m]?.bind fun n => if n.isGap then none else n.parent

theorem host?_eq_some_iff {o : Outline} :
    o.host? m = some p ↔ ∃ x, o.nodes[m]? = some x ∧ x.isGap = false ∧ x.parent = some p := by
  rw [host?, Option.bind_eq_some_iff]
  refine exists_congr fun x => and_congr_right fun _ => ?_
  cases x.isGap <;> simp

/-- The ends of the nodes after a sweep from the last one up to node `m`. Every node carries its end over to its container. -/
def sweep (o : Outline) (m : Nat) : List Nat :=
  if m < o.nodes.length then
    let stops := o.sweep (m + 1)
    match o.host? m with
    | some p => stops.modify p (max · (stops.getD m 0))
    | none => stops
  else o.nodes.map (·.stop)
termination_by o.nodes.length - m

/-- The ends that reach node `i` while the sweep goes up to node `m`. -/
def endsFrom (o : Outline) (m i : Nat) : Set Nat :=
  {stop | ∃ j x, o.nodes[j]? = some x ∧ (j = i ∨ x.isGap = false ∧
    ∃ c y, o.nodes[c]? = some y ∧ y.parent = some i ∧ m ≤ c ∧ (j = c ∨ o.Below c j)) ∧ x.stop = stop}

theorem endsFrom_zero (o : Outline) (i : Nat) : o.endsFrom 0 i = o.ends i := by
  ext stop
  refine exists_congr fun j => exists_congr fun x => and_congr_right fun found => and_congr_left fun _ => or_congr_right ?_
  rw [and_comm]
  refine and_congr_left fun _ => ⟨?_, fun below => ?_⟩
  · rintro ⟨c, y, at', parent, -, rfl | below⟩
    · exact .child at' parent
    · exact (Below.child at' parent).trans below
  · obtain ⟨c, y, at', parent, inside⟩ := below.exists_child
    exact ⟨c, y, at', parent, Nat.zero_le c, inside⟩

theorem isGreatest_endsFrom_length {o : Outline} (beyond : o.nodes.length ≤ m) (found : o.nodes[i]? = some n) :
    IsGreatest (o.endsFrom m i) n.stop := by
  refine ⟨⟨i, n, found, .inl rfl, rfl⟩, ?_⟩
  rintro stop ⟨j, x, at', rfl | ⟨-, c, y, child, -, le, -⟩, rfl⟩
  · obtain rfl := Option.some.inj (found.symm.trans at')
    exact Nat.le_refl _
  · have := (List.getElem?_eq_some_iff.mp child).1
    omega

theorem endsFrom_of_host?_ne (proper : Rootless items) (other : (ofItems items).host? m ≠ some i) :
    (ofItems items).endsFrom m i = (ofItems items).endsFrom (m + 1) i := by
  ext stop
  constructor
  · rintro ⟨j, x, at', own | ⟨visible, c, y, found, parent, le, inside⟩, rfl⟩
    · exact ⟨j, x, at', .inl own, rfl⟩
    · refine ⟨j, x, at', .inr ⟨visible, c, y, found, parent, Nat.lt_of_le_of_ne le ?_, inside⟩, rfl⟩
      rintro rfl
      have gap : y.isGap = true := by
        by_contra seen
        exact other (host?_eq_some_iff.mpr ⟨y, found, by simpa using seen, parent⟩)
      rcases inside with rfl | below
      · obtain rfl := Option.some.inj (found.symm.trans at')
        exact absurd (gap.symm.trans visible) Bool.noConfusion
      · refine not_below proper found ?_ j below
        cases container : y.isContainer with
        | false => rfl
        | true => exact absurd (gap.symm.trans (Kind.isGap_of_isContainer container)) Bool.noConfusion
  · rintro ⟨j, x, at', own | ⟨visible, c, y, found, parent, le, inside⟩, rfl⟩
    · exact ⟨j, x, at', .inl own, rfl⟩
    · exact ⟨j, x, at', .inr ⟨visible, c, y, found, parent, Nat.le_of_succ_le le, inside⟩, rfl⟩

theorem endsFrom_of_host? (host : (ofItems items).host? m = some p) :
    (ofItems items).endsFrom m p = (ofItems items).endsFrom (m + 1) p ∪ (ofItems items).endsFrom (m + 1) m := by
  obtain ⟨z, here, seen, parent⟩ := host?_eq_some_iff.mp host
  ext stop
  constructor
  · rintro ⟨j, x, at', own | ⟨visible, c, y, found, parent', le, inside⟩, rfl⟩
    · exact .inl ⟨j, x, at', .inl own, rfl⟩
    · rcases Nat.eq_or_lt_of_le le with rfl | less
      · refine .inr ⟨j, x, at', inside.imp_right fun below => ⟨visible, ?_⟩, rfl⟩
        obtain ⟨c, y, found, parent, inside⟩ := below.exists_child
        exact ⟨c, y, found, parent, parent_lt found parent, inside⟩
      · exact .inl ⟨j, x, at', .inr ⟨visible, c, y, found, parent', less, inside⟩, rfl⟩
  · rintro (⟨j, x, at', own | ⟨visible, c, y, found, parent', le, inside⟩, rfl⟩ |
      ⟨j, x, at', rfl | ⟨visible, c, y, found, parent', le, inside⟩, rfl⟩)
    · exact ⟨j, x, at', .inl own, rfl⟩
    · exact ⟨j, x, at', .inr ⟨visible, c, y, found, parent', Nat.le_of_succ_le le, inside⟩, rfl⟩
    · obtain rfl := Option.some.inj (here.symm.trans at')
      exact ⟨j, _, at', .inr ⟨seen, j, _, here, parent, Nat.le_refl _, .inl rfl⟩, rfl⟩
    · refine ⟨j, x, at', .inr ⟨visible, m, z, here, parent, Nat.le_refl _, .inr ?_⟩, rfl⟩
      rcases inside with rfl | below
      · exact .child found parent'
      · exact (Below.child found parent').trans below

/-- On its way up the sweep has the last of the ends that have reached a node. -/
theorem isGreatest_sweep (proper : Rootless items) (m : Nat) (found : (ofItems items).nodes[i]? = some n) :
    ∃ stop, ((ofItems items).sweep m)[i]? = some stop ∧ IsGreatest ((ofItems items).endsFrom m i) stop := by
  induction m using sweep.induct (ofItems items) generalizing i n with
  | case1 m less p host ih =>
    obtain ⟨x, here, -, parent⟩ := host?_eq_some_iff.mp host
    rw [sweep, if_pos less, host]
    dsimp only
    rw [List.getElem?_modify]
    obtain ⟨own, reached, greatest⟩ := ih found
    rw [reached]
    by_cases container : p = i
    · obtain ⟨brought, reached', greatest'⟩ := ih here
      subst container
      refine ⟨max own brought, ?_, ?_⟩
      · simp [List.getD, reached']
      · rw [endsFrom_of_host? host]
        exact greatest.union greatest'
    · refine ⟨own, by simp [container], ?_⟩
      rwa [endsFrom_of_host?_ne proper (by simpa [host] using container)]
  | case2 m less none ih =>
    rw [sweep, if_pos less, none]
    dsimp only
    rw [endsFrom_of_host?_ne proper (by simp [none])]
    exact ih found
  | case3 m beyond =>
    rw [sweep, if_neg beyond, List.getElem?_map, found]
    exact ⟨n.stop, rfl, isGreatest_endsFrom_length (Nat.le_of_not_lt beyond) found⟩

theorem sweep_zero (proper : Rootless items) (found : (ofItems items).nodes[i]? = some n) :
    ((ofItems items).sweep 0)[i]? = some ((ofItems items).blockEnd i) := by
  obtain ⟨stop, swept, greatest⟩ := isGreatest_sweep proper 0 found
  rw [endsFrom_zero] at greatest
  rw [swept, greatest.unique (isGreatest_blockEnd proper found)]

end Outline
end Offside
