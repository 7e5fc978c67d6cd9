import Offside.Proofs.Arenas

/-! Paths followed down the lists of an arena to a node, and the path read upwards from it along the parents. The two agree unless
an earlier key of the same name stands in the way down, and nothing can be read upwards through an entry. -/
namespace Offside

namespace Outline

/-- Right below the same container there is an earlier key of the same name. -/
def Shadowed (o : Outline) (j : Nat) : Prop :=
  ∃ i name k n x, o.IsChild i name j n ∧ o.IsChild i name k x ∧ k < j

section Following

variable {o : Outline} {path more : KeyPath} {name : Text} {i j : Nat} {n : Node}

theorem follow_append (o : Outline) (i : Nat) (path more : KeyPath) : o.follow i (path ++ more) =
    if (o.follow i path).2 = [] then o.follow (o.follow i path).1 more
    else ((o.follow i path).1, (o.follow i path).2 ++ more) := by
  induction path generalizing i with
  | nil => simp [follow]
  | cons key keys ih =>
    rw [List.cons_append, follow_cons, follow_cons]
    split
    · exact ih _
    · simp

theorem follow_singleton_iff : o.follow i [name] = (j, []) ↔ o.childNamed? i name = some j := by
  rw [follow_cons]
  cases o.childNamed? i name <;> simp [follow]

theorem follow_concat_iff : o.follow i (path ++ [name]) = (j, []) ↔
    ∃ p, o.follow i path = (p, []) ∧ o.childNamed? p name = some j := by
  rw [follow_append]
  obtain ⟨⟨p, missing⟩, followed⟩ : ∃ end', o.follow i path = end' := ⟨_, rfl⟩
  rw [followed]
  cases missing with
  | nil => simp [follow_singleton_iff]
  | cons => simp

theorem childNamed?_eq_some_iff_not_shadowed (child : o.IsChild i name j n) :
    o.childNamed? i name = some j ↔ ¬o.Shadowed j := by
  rw [childNamed?_eq_some_iff]
  constructor
  · rintro ⟨-, first⟩ ⟨p, key, k, m, x, own, other, earlier⟩
    obtain rfl := Option.some.inj (child.found.symm.trans own.found)
    obtain rfl := Option.some.inj (child.parent.symm.trans own.parent)
    obtain rfl := Option.some.inj (child.name.symm.trans own.name)
    exact first k x earlier other
  · intro clear
    exact ⟨⟨n, child⟩, fun k x earlier other => clear ⟨i, name, k, n, x, child, other, earlier⟩⟩

theorem Leads.exists_node {items : List Item} (leads : (ofItems items).Leads path i) :
    ∃ n, (ofItems items).nodes[i]? = some n := by
  cases leads with
  | root => exact ⟨_, getElem?_ofItems_zero items⟩
  | child _ isChild => exact ⟨_, isChild.found⟩

end Following

variable {items : List Item} {path : KeyPath} {i : Nat} {n : Node}

/-- A path resolves to a node that it leads to exactly if nothing on the way to the node is shadowed. -/
theorem Leads.follow_iff (leads : (ofItems items).Leads path i) :
    (ofItems items).follow 0 path = (i, []) ↔
      ∀ j, j = i ∨ (ofItems items).Below j i → ¬(ofItems items).Shadowed j := by
  induction leads with
  | root =>
    refine iff_of_true rfl fun j onWay shadowed => ?_
    obtain ⟨p, name, k, x, y, child, -⟩ := shadowed
    have := child.above
    rcases onWay with rfl | below
    · omega
    · have := below.lt
      omega
  | @child path p j name x leads isChild ih =>
    have last := childNamed?_eq_some_iff_not_shadowed isChild
    have way (k : Nat) : (ofItems items).Below k j ↔ k = p ∨ (ofItems items).Below k p :=
      below_iff_of_parent isChild.found isChild.parent
    rw [follow_concat_iff]
    constructor
    · rintro ⟨q, followed, named⟩ k onWay
      obtain ⟨⟨y, other⟩, -⟩ := childNamed?_eq_some_iff.mp named
      obtain rfl := Option.some.inj (isChild.found.symm.trans other.found)
      obtain rfl := Option.some.inj (isChild.parent.symm.trans other.parent)
      rcases onWay with rfl | below
      · exact last.mp named
      · exact ih.mp followed k ((way k).mp below)
    · intro clear
      exact ⟨p, ih.mpr fun k onWay => clear k (.inr ((way k).mpr onWay)), last.mpr (clear j (.inl rfl))⟩

/-- Node `i` is an entry, or it lies below one. -/
def InEntry (o : Outline) (i : Nat) : Prop :=
  ∃ j x column, (j = i ∨ o.Below j i) ∧ o.nodes[j]? = some x ∧ x.kind = .entry column

theorem inEntry_iff_of_parent {o : Outline} {p : Nat} (found : o.nodes[i]? = some n) (parent : n.parent = some p) :
    o.InEntry i ↔ (∃ column, n.kind = .entry column) ∨ o.InEntry p := by
  constructor
  · rintro ⟨j, x, column, rfl | below, at', entry⟩
    · obtain rfl := Option.some.inj (found.symm.trans at')
      exact .inl ⟨column, entry⟩
    · exact .inr ⟨j, x, column, (below_iff_of_parent found parent).mp below, at', entry⟩
  · rintro (⟨column, entry⟩ | ⟨j, x, column, onWay, at', entry⟩)
    · exact ⟨i, n, column, .inl rfl, found, entry⟩
    · exact ⟨j, x, column, .inr ((below_iff_of_parent found parent).mpr onWay), at', entry⟩

theorem not_inEntry_zero (items : List Item) : ¬(ofItems items).InEntry 0 := by
  rintro ⟨j, x, column, rfl | below, at', entry⟩
  · obtain rfl := Option.some.inj ((getElem?_ofItems_zero items).symm.trans at')
    contradiction
  · exact Nat.not_lt_zero j below.lt

/-- No path is read upwards from a raw line or a gap, nor through an entry; from anywhere else one is. -/
theorem keyPath?_eq_none_iff (proper : Rootless items) (found : (ofItems items).nodes[i]? = some n) :
    (ofItems items).keyPath? i = none ↔ n.isContainer = false ∨ (ofItems items).InEntry i := by
  induction i using Nat.strong_induction_on generalizing n with
  | _ i ih =>
    rcases Nat.eq_zero_or_pos i with rfl | positive
    · obtain rfl := Option.some.inj ((getElem?_ofItems_zero items).symm.trans found)
      simp [keyPath?_zero, not_inEntry_zero, Node.isContainer, Kind.isContainer]
    · obtain ⟨p, x, parent, less, above⟩ := exists_parent found positive
      have container := isContainer_of_parent proper found parent above
      have upper : (ofItems items).keyPath? p = none ↔ (ofItems items).InEntry p := by simp [ih p less above, container]
      have path : (ofItems items).keyPath? i = none ↔ (ofItems items).keyPath? p = none ∨ n.kind.name? = none := by
        rw [keyPath?_of_parent found parent less above]
        cases (ofItems items).keyPath? p <;> cases n.kind.name? <;> simp
      rw [path, upper, inEntry_iff_of_parent found parent, Node.isContainer]
      cases kind : n.kind with
      | root => exact absurd kind (ne_root_of_pos proper positive found)
      | key => simp [Kind.name?, Kind.isContainer]
      | entry => simp [Kind.name?]
      | raw => simp [Kind.name?, Kind.isContainer]
      | gap => simp [Kind.name?, Kind.isContainer]

end Outline

namespace Arena

/-- An earlier key in the same list has the same name. -/
def Shadowed (a : Arena) (j : Nat) : Prop :=
  ∃ i k name, [k, j].Sublist (a.children i) ∧ a.name? k = some name ∧ a.name? j = some name

variable {a : Arena} {i j k : Nat}

theorem name?_eq (a : Arena) (j : Nat) : a.name? j = a.outline.nodes[j]?.bind (·.kind.name?) := by
  rw [name?, outline, List.getElem?_map, Option.bind_map]
  rfl

theorem Linked.sublist_pair_iff (linked : a.Linked) :
    [k, j].Sublist (a.children i) ↔ k ∈ a.children i ∧ j ∈ a.children i ∧ k < j := by
  constructor
  · intro part
    have ordered := (linked.pairwise_children i).sublist part
    exact ⟨part.mem List.mem_cons_self, part.mem (by simp), by simpa using ordered⟩
  · rintro ⟨first, second, less⟩
    obtain ⟨before, behind, split⟩ := List.append_of_mem first
    have ordered := linked.pairwise_children i
    rw [split, List.pairwise_append, List.pairwise_cons] at ordered
    rw [split, List.mem_append, List.mem_cons] at second
    rw [split]
    refine .trans (List.Sublist.cons_cons k (List.singleton_sublist.mpr ?_)) (List.sublist_append_right before _)
    rcases second with early | rfl | late
    · exact absurd (ordered.2.2 j early k List.mem_cons_self) (Nat.lt_asymm less)
    · exact absurd less (Nat.lt_irrefl _)
    · exact late

theorem Linked.shadowed_iff (linked : a.Linked) : a.Shadowed j ↔ a.outline.Shadowed j := by
  have child {i j : Nat} {name : Text} : (j ∈ a.children i ∧ a.name? j = some name) ↔ ∃ n, a.outline.IsChild i name j n := by
    rw [linked.mem_children_iff, name?_eq]
    constructor
    · rintro ⟨⟨n, found, less, parent⟩, named⟩
      rw [found, Option.bind_some] at named
      exact ⟨n, found, less, parent, named⟩
    · rintro ⟨n, found, less, parent, named⟩
      exact ⟨⟨n, found, less, parent⟩, by rw [found, Option.bind_some, named]⟩
  constructor
  · rintro ⟨i, k, name, part, first, second⟩
    obtain ⟨memberK, memberJ, less⟩ := linked.sublist_pair_iff.mp part
    obtain ⟨x, other⟩ := child.mp ⟨memberK, first⟩
    obtain ⟨n, own⟩ := child.mp ⟨memberJ, second⟩
    exact ⟨i, name, k, n, x, own, other, less⟩
  · rintro ⟨i, name, k, n, x, own, other, less⟩
    obtain ⟨memberK, first⟩ := child.mpr ⟨x, other⟩
    obtain ⟨memberJ, second⟩ := child.mpr ⟨n, own⟩
    exact ⟨i, k, name, linked.sublist_pair_iff.mpr ⟨memberK, memberJ, less⟩, first, second⟩

end Arena

namespace Document

/-- Paths are followed down the lists of the arena. Reading the path of a node upwards along the parents gives back the path that
was followed down to it. Following the path of a node down again reaches the node exactly if no earlier key shadows the node or one
above it. Raw lines and gaps have no path, and neither have entries and what lies below them; everything else has. -/
theorem follow_iff_keyPath (d : Document) :
    d.arena.outline = d.outline ∧ (∀ i path, d.outline.follow i path = d.arena.follow i path) ∧
    (∀ path i, d.arena.follow 0 path = (i, []) → d.arena.outline.keyPath? i = some path) ∧
    (∀ path i n, d.arena.outline.nodes[i]? = some n → d.arena.outline.keyPath? i = some path →
      (d.arena.follow 0 path = (i, []) ↔ ∀ j, j = i ∨ d.arena.outline.Below j i → ¬d.arena.Shadowed j)) ∧
    ∀ (i : Nat) (n : Node), d.arena.outline.nodes[i]? = some n →
      (d.arena.outline.keyPath? i = none ↔ n.isContainer = false ∨ d.arena.outline.InEntry i) := by
  have linked := d.linked_arena
  have stored := d.outline_arena
  refine ⟨stored, fun i path => by rw [linked.follow_eq, stored], fun path i followed => ?_, fun path i n found reached => ?_,
    fun i n found => ?_⟩
  · rw [linked.follow_eq, stored] at followed
    obtain ⟨way, rfl, leads⟩ := Outline.leads_follow followed .root
    obtain ⟨n, found⟩ := leads.exists_node
    rw [List.append_nil, stored]
    exact (Outline.keyPath?_eq_some_iff found).mpr leads
  · simp only [linked.shadowed_iff, linked.follow_eq]
    rw [stored] at found reached ⊢
    exact ((Outline.keyPath?_eq_some_iff found).mp reached).follow_iff
  · rw [stored] at found ⊢
    exact Outline.keyPath?_eq_none_iff d.rootless_items found

/-- Of two keys with one name, the first one is found. What lies below an entry has no path. -/
theorem follow_iff_keyPath_duplicate :
    let d : Document := ⟨"a: 1\nb:\n  a: 2\n  a: 3\n- c: 4\n".toList⟩
    d.arena.outline.keyPath? 3 = some ["b".toList, "a".toList] ∧
      (∀ j, j = 3 ∨ d.arena.outline.Below j 3 → ¬d.arena.Shadowed j) ∧ d.arena.outline.keyPath? 6 = none := by
  intro d
  obtain ⟨stored, -, down, up, none⟩ := follow_iff_keyPath d
  have followed : d.arena.follow 0 ["b".toList, "a".toList] = (3, []) := by decide
  have reached := down _ 3 followed
  have node (i : Nat) : d.arena.outline.nodes[i]? = d.outline.nodes[i]? := by rw [stored]
  have entry : d.outline.nodes[5]? = some ⟨⟨.entry 0, 22, 28⟩, some 0⟩ := by decide
  have key : d.outline.nodes[6]? = some ⟨⟨.key 2 "c".toList 25, 24, 28⟩, some 5⟩ := by decide
  refine ⟨reached, (up _ 3 ⟨⟨.key 2 "a".toList 11, 10, 14⟩, some 2⟩ (by decide) reached).mp followed, ?_⟩
  exact (none 6 _ ((node 6).trans key)).mpr
    (.inr ⟨5, _, 0, .inr (.child ((node 6).trans key) rfl), (node 5).trans entry, rfl⟩)

end Document
end Offside
