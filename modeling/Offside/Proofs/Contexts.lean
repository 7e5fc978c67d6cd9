import Offside.Proofs.OffsideRule

/-! The context of a place, found by descending along last children, is the container that the off-side rule gives to a
line there. -/
namespace Offside

theorem Node.holds_trans {a b c : Node} (ab : a.holds b = true) (bc : b.holds c = true) : a.holds c = true := by
  unfold holds at *
  cases ha : a.column? with
  | none => rfl
  | some x =>
    cases hb : b.column? with
    | none => simp [ha, hb] at ab
    | some y =>
      cases hc : c.column? with
      | none => simp [hb, hc] at bc
      | some z =>
        simp only [ha, hb, hc, Option.all_some, Option.any_some, decide_eq_true_eq] at ab bc ⊢
        omega

namespace Outline

theorem OpenAt.trans {o : Outline} {i m c : Nat} {n x : Node} (outer : o.OpenAt m c x) (holds : x.holds n = true)
    (inner : o.OpenAt i m n) : o.OpenAt i c x := by
  refine ⟨outer.found, outer.opener, Nat.lt_trans outer.above inner.above, fun k y lower upper found visible => ?_⟩
  rcases Nat.lt_trichotomy k m with before | rfl | behind
  · exact outer.between k y lower before found visible
  · obtain rfl := Option.some.inj (inner.found.symm.trans found)
    exact holds
  · exact Node.holds_trans holds (inner.between k y behind upper found visible)

theorem OpenAt.isGap {o : Outline} {i m : Nat} {n : Node} (h : o.OpenAt i m n) : n.isGap = false :=
  Kind.isGap_of_isContainer h.opener.1

/-- Node `i` is the root, or it is open at node `t` and left of it. -/
def Surrounds (o : Outline) (i t : Nat) (y : Node) : Prop := i = 0 ∨ ∃ n, o.OpenAt t i n ∧ n.holds y = true

structure RealChild (o : Outline) (i c : Nat) (x : Node) : Prop where
  found : o.nodes[c]? = some x
  above : i < c
  parent : x.parent = some i
  visible : x.isGap = false

variable {items : List Item}

theorem Surrounds.le_parent (proper : Rootless items) {i t p : Nat} {y : Node}
    (h : (ofItems items).Surrounds i t y) (found : (ofItems items).nodes[t]? = some y) (positive : 0 < t)
    (visible : y.isGap = false) (parent : y.parent = some p) : i ≤ p := by
  obtain ⟨q, eq, latest⟩ := latest_parent proper found positive visible
  obtain rfl := Option.some.inj (parent.symm.trans eq)
  rcases h with rfl | accepted
  · exact Nat.zero_le _
  · rcases latest with ⟨-, greatest⟩ | ⟨-, none⟩
    · exact greatest i accepted
    · exact absurd accepted (none i)

theorem exists_child (proper : Rootless items) {i t : Nat} {y : Node} (found : (ofItems items).nodes[t]? = some y)
    (visible : y.isGap = false) (less : i < t) (outer : (ofItems items).Surrounds i t y) :
    ∃ c x, (ofItems items).RealChild i c x ∧ (c = t ∨ (ofItems items).OpenAt t c x ∧ x.holds y = true) := by
  induction t using Nat.strong_induction_on generalizing y with
  | _ t ih =>
    have positive : 0 < t := Nat.lt_of_le_of_lt (Nat.zero_le i) less
    obtain ⟨p, parent, latest⟩ := latest_parent proper found positive visible
    rcases Nat.eq_or_lt_of_le (outer.le_parent proper found positive visible parent) with rfl | further
    · exact ⟨t, y, ⟨found, less, parent, visible⟩, .inl rfl⟩
    · rcases latest with ⟨⟨n, opened, holds⟩, -⟩ | ⟨rfl, -⟩
      · have outer' : (ofItems items).Surrounds i p n := by
          rcases outer with root | ⟨m, surrounding, left⟩
          · exact .inl root
          · exact .inr ⟨m, surrounding.of_le further (Nat.le_of_lt opened.above),
              surrounding.between p n further opened.above opened.found opened.isGap⟩
        obtain ⟨c, x, child, rfl | ⟨above, left⟩⟩ := ih p opened.above opened.found opened.isGap further outer'
        · obtain rfl := Option.some.inj (child.found.symm.trans opened.found)
          exact ⟨c, x, child, .inr ⟨opened, holds⟩⟩
        · exact ⟨c, x, child, .inr ⟨above.trans left opened, Node.holds_trans left holds⟩⟩
      · exact absurd further (Nat.not_lt_zero i)

theorem mem_children_iff {o : Outline} {i c : Nat} {x : Node} :
    (x, c) ∈ o.children i ↔ o.nodes[c]? = some x ∧ i < c ∧ x.parent = some i := by
  simp only [children, List.mem_filter, List.mem_zipIdx_iff_getElem?, Bool.and_eq_true, decide_eq_true_eq, beq_iff_eq]

theorem mem_realChildren_iff {o : Outline} {i c : Nat} {x : Node} :
    (x, c) ∈ o.realChildren i ↔ o.RealChild i c x := by
  simp only [realChildren, List.mem_filter, mem_children_iff, Bool.not_eq_true']
  constructor
  · rintro ⟨⟨found, above, parent⟩, visible⟩
    exact ⟨found, above, parent, visible⟩
  · rintro ⟨found, above, parent, visible⟩
    exact ⟨⟨found, above, parent⟩, visible⟩

theorem pairwise_children (o : Outline) (i : Nat) : (o.children i).Pairwise fun a b => a.2 < b.2 := by
  have ordered : o.nodes.zipIdx.Pairwise fun a b => a.2 < b.2 := by
    apply List.pairwise_map.mp
    rw [List.zipIdx_map_snd]
    exact List.pairwise_lt_range'
  exact ordered.filter _

theorem pairwise_realChildren (o : Outline) (i : Nat) : (o.realChildren i).Pairwise fun a b => a.2 < b.2 :=
  (o.pairwise_children i).filter _

theorem le_of_getLast? {nodes : List (Node × Nat)} (ordered : nodes.Pairwise fun a b => a.2 < b.2) {a b : Node × Nat}
    (last : nodes.getLast? = some a) (member : b ∈ nodes) : b.2 ≤ a.2 := by
  obtain ⟨early, rfl⟩ := List.getLast?_eq_some_iff.mp last
  rw [List.pairwise_append] at ordered
  rcases List.mem_append.mp member with earlier | same
  · exact Nat.le_of_lt (ordered.2.2 b earlier a List.mem_cons_self)
  · exact Nat.le_of_eq (congrArg Prod.snd (List.mem_singleton.mp same))

theorem getLast?_realChildren_iff {o : Outline} {i j : Nat} {n : Node} :
    (o.realChildren i).getLast? = some (n, j) ↔ o.RealChild i j n ∧ ∀ k x, o.RealChild i k x → k ≤ j := by
  constructor
  · intro last
    refine ⟨mem_realChildren_iff.mp (List.mem_of_getLast? last), ?_⟩
    intro k x child
    exact le_of_getLast? (o.pairwise_realChildren i) last (mem_realChildren_iff.mpr child)
  · rintro ⟨child, greatest⟩
    have member : (n, j) ∈ o.realChildren i := mem_realChildren_iff.mpr child
    cases last : (o.realChildren i).getLast? with
    | none =>
      rw [List.getLast?_eq_none_iff.mp last] at member
      contradiction
    | some a =>
      obtain ⟨m, k⟩ := a
      have other := mem_realChildren_iff.mp (List.mem_of_getLast? last)
      obtain rfl : k = j :=
        Nat.le_antisymm (greatest k m other) (le_of_getLast? (o.pairwise_realChildren i) last member)
      obtain rfl := Option.some.inj (other.found.symm.trans child.found)
      rfl

theorem lastChildBefore?_eq_some {o : Outline} {offset i j : Nat} {n : Node}
    (h : o.lastChildBefore? offset i = some (n, j)) :
    o.RealChild i j n ∧ n.start < offset ∧ ∀ k x, o.RealChild i k x → x.start < offset → k ≤ j := by
  have member := List.mem_of_getLast? h
  rw [List.mem_filter, mem_realChildren_iff, decide_eq_true_eq] at member
  refine ⟨member.1, member.2, ?_⟩
  intro k x child before
  refine le_of_getLast? (b := (x, k)) ((o.pairwise_realChildren i).filter _) h ?_
  rw [List.mem_filter, mem_realChildren_iff, decide_eq_true_eq]
  exact ⟨child, before⟩

theorem lastChildBefore?_eq_none {o : Outline} {offset i : Nat} (h : o.lastChildBefore? offset i = none) {k : Nat}
    {x : Node} (child : o.RealChild i k x) : offset ≤ x.start := by
  have empty := List.filter_eq_nil_iff.mp (List.getLast?_eq_none_iff.mp h)
  have later := empty (x, k) (mem_realChildren_iff.mpr child)
  rwa [decide_eq_true_eq, Nat.not_lt] at later

theorem openAt_lastChild (proper : Rootless items) {i j t : Nat} {n y : Node}
    (child : (ofItems items).RealChild i j n) (container : n.isContainer = true) (before : j < t)
    (outer : (ofItems items).Surrounds i t y)
    (last : ∀ k x, (ofItems items).RealChild i k x → k < t → k ≤ j) : (ofItems items).OpenAt t j n := by
  have root := ne_root_of_pos proper (Nat.lt_of_le_of_lt (Nat.zero_le i) child.above) child.found
  refine ⟨child.found, ⟨container, root⟩, before, fun k => ?_⟩
  induction k using Nat.strong_induction_on with
  | _ k ih =>
    intro x lower upper found visible
    by_contra closed
    have positive : 0 < k := Nat.lt_of_le_of_lt (Nat.zero_le j) lower
    have above : i < k := Nat.lt_trans child.above lower
    have outer' : (ofItems items).Surrounds i k x := by
      rcases outer with root | ⟨m, opened, -⟩
      · exact .inl root
      · exact .inr ⟨m, opened.of_le above (Nat.le_of_lt upper), opened.between k x above upper found visible⟩
    obtain ⟨p, parent, latest⟩ := latest_parent proper found positive visible
    rcases Nat.eq_or_lt_of_le (outer'.le_parent proper found positive visible parent) with rfl | further
    · exact absurd (last k x ⟨found, above, parent, visible⟩ upper) (Nat.not_le.mpr lower)
    · rcases latest with ⟨⟨m, opened, holds⟩, -⟩ | ⟨rfl, -⟩
      · rcases Nat.lt_trichotomy p j with less | rfl | more
        · -- Node `p` would hold `j` as well and be its container.
          have held := opened.between j n less lower child.found child.visible
          have inner := opened.of_le less (Nat.le_of_lt lower)
          have := Surrounds.le_parent proper (.inr ⟨m, inner, held⟩) child.found
            (Nat.lt_of_le_of_lt (Nat.zero_le p) less) child.visible child.parent
          omega
        · obtain rfl := Option.some.inj (child.found.symm.trans opened.found)
          exact closed holds
        · have held := ih p opened.above m more (Nat.lt_trans opened.above upper) opened.found opened.isGap
          exact closed (Node.holds_trans held holds)
      · exact absurd further (Nat.not_lt_zero i)

theorem Surrounds.le_latest {o : Outline} {i k t : Nat} {y : Node} (outer : o.Surrounds i k y)
    (latest : Latest (fun m => ∃ n, o.OpenAt k m n ∧ n.holds y = true) t) : i ≤ t := by
  rcases outer with rfl | accepted
  · exact Nat.zero_le _
  · rcases latest with ⟨-, greatest⟩ | ⟨-, none⟩
    · exact greatest i accepted
    · exact absurd accepted (none i)

/-- As long as the latest container lies deeper, a child that is open leads on to it. -/
theorem exists_openChild (proper : Rootless items) {i k t : Nat} {y : Node}
    (outer : (ofItems items).Surrounds i k y)
    (latest : Latest (fun m => ∃ n, (ofItems items).OpenAt k m n ∧ n.holds y = true) t) (more : i < t) :
    ∃ c x, (ofItems items).RealChild i c x ∧ (ofItems items).OpenAt k c x ∧ x.holds y = true := by
  rcases latest with ⟨⟨n, opened, holds⟩, -⟩ | ⟨rfl, -⟩
  · have inner : (ofItems items).Surrounds i t n := by
      rcases outer with root | ⟨m, open', -⟩
      · exact .inl root
      · exact .inr ⟨m, open'.of_le more (Nat.le_of_lt opened.above),
          open'.between t n more opened.above opened.found opened.isGap⟩
    obtain ⟨c, x, child, rfl | ⟨above, left⟩⟩ := exists_child proper opened.found opened.isGap more inner
    · obtain rfl := Option.some.inj (child.found.symm.trans opened.found)
      exact ⟨c, x, child, opened, holds⟩
    · exact ⟨c, x, child, above.trans left opened, Node.holds_trans left holds⟩
  · exact absurd more (Nat.not_lt_zero i)

/-- The descent from a node that surrounds `y` reaches the latest container of `y` behind the first `k` nodes. -/
theorem contextFrom_eq (proper : Rootless items) {offset column k t : Nat} {y : Node}
    (stands : y.column? = some column)
    (places : ∀ j x, (ofItems items).nodes[j]? = some x → 0 < j → x.isGap = false → (x.start < offset ↔ j < k))
    (latest : Latest (fun m => ∃ n, (ofItems items).OpenAt k m n ∧ n.holds y = true) t) {i : Nat}
    (outer : (ofItems items).Surrounds i k y) : (ofItems items).contextFrom offset column i = t := by
  have le := outer.le_latest latest
  have early {j : Nat} {x : Node} (child : (ofItems items).RealChild i j x) : x.start < offset ↔ j < k :=
    places j x child.found (Nat.lt_of_le_of_lt (Nat.zero_le i) child.above) child.visible
  rw [contextFrom]
  split
  next none =>
    refine (Nat.eq_or_lt_of_le le).resolve_right fun more => ?_
    obtain ⟨c, x, child, opened, -⟩ := exists_openChild proper outer latest more
    have := lastChildBefore?_eq_none none child
    have := (early child).mpr opened.above
    omega
  next n j found =>
    obtain ⟨child, begins, last⟩ := lastChildBefore?_eq_some found
    have before := (early child).mp begins
    have opened (container : n.isContainer = true) : (ofItems items).OpenAt k j n :=
      openAt_lastChild proper child container before outer fun c x other less => last c x other ((early other).mpr less)
    have left (container : n.isContainer = true) : n.column?.any (· < column) = true ↔ n.holds y = true := by
      obtain ⟨c, stands'⟩ := (opened container).column?
      rw [Node.holds_of_column? stands' stands, stands', Option.any_some, decide_eq_true_eq]
    split
    next inside =>
      rw [Bool.and_eq_true] at inside
      have further := bounds_of_lastChildBefore found
      exact contextFrom_eq proper stands places latest (.inr ⟨n, opened inside.1, (left inside.1).mp inside.2⟩)
    next outside =>
      refine (Nat.eq_or_lt_of_le le).resolve_right fun more => ?_
      obtain ⟨c, x, child', opened', holds⟩ := exists_openChild proper outer latest more
      rcases Nat.eq_or_lt_of_le (last c x child' ((early child').mpr opened'.above)) with rfl | less
      · obtain rfl := Option.some.inj (child.found.symm.trans child'.found)
        have container := opened'.opener.1
        exact outside (by rw [container, (left container).mpr holds]; rfl)
      · -- The open child would hold `j` as well and be its container.
        have held := opened'.between j n less before child.found child.visible
        have := Surrounds.le_parent proper (.inr ⟨x, opened'.of_le less (Nat.le_of_lt before), held⟩) child.found
          (Nat.lt_of_le_of_lt (Nat.zero_le c) less) child.visible child.parent
        have := child'.above
        omega
termination_by (ofItems items).nodes.length - i
decreasing_by omega

/-- The context of a place is the container that the frames before it give to an item at its column. -/
theorem context_eq (proper : Rootless items) {offset column k : Nat}
    (places : ∀ j x, (ofItems items).nodes[j]? = some x → 0 < j → x.isGap = false → (x.start < offset ↔ j ≤ k)) :
    (ofItems items).context offset column = enclosing (closeTo column (openedAfter [] 1 (items.take k))) := by
  have latest := @latest_of_column items proper k column ⟨.raw column, 0, 0⟩ rfl none
  exact contextFrom_eq proper rfl (fun j x found positive visible =>
    (places j x found positive visible).trans Nat.lt_succ_iff.symm) latest (.inl rfl)

theorem context_zero (o : Outline) (offset : Nat) : o.context offset 0 = 0 := by
  rw [context, contextFrom]
  split
  · rfl
  · next n j _ =>
    rw [if_neg]
    cases n.column? <;> simp

end Outline
end Offside
