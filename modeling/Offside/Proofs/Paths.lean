import Mathlib.Data.List.Basic
import Offside.Outline.Basic

/-! Paths below a node. The child with a name is the first of that name, so a path that resolves within the
first nodes of an outline is not affected by the nodes behind them. -/
namespace Offside.Outline

structure IsChild (o : Outline) (i : Nat) (name : Text) (j : Nat) (n : Node) : Prop where
  found : o.nodes[j]? = some n
  above : i < j
  parent : n.parent = some i
  name : n.kind.name? = some name

theorem childNamed?_eq_find? (o : Outline) (i : Nat) (name : Text) :
    o.childNamed? i name = (o.nodes.zipIdx.find? fun (n, j) =>
      (decide (i < j) && n.parent == some i) && n.kind.name? == some name).map Prod.snd := by
  rw [childNamed?, children, List.find?_filter]
  congr 2
  funext entry
  rw [Bool.eq_iff_iff]
  simp

theorem childNamed?_eq_some_iff {o : Outline} {i j : Nat} {name : Text} :
    o.childNamed? i name = some j ↔
      (∃ n, o.IsChild i name j n) ∧ ∀ k n, k < j → ¬o.IsChild i name k n := by
  rw [childNamed?_eq_find?, Option.map_eq_some_iff]
  constructor
  · rintro ⟨⟨n, j⟩, found, rfl⟩
    obtain ⟨accepted, k, bound, eq, first⟩ := List.find?_eq_some_iff_getElem.mp found
    simp only [List.getElem_zipIdx, Nat.zero_add, Prod.mk.injEq] at eq
    obtain ⟨at', rfl⟩ := eq
    simp only [List.length_zipIdx] at bound
    simp only [Bool.and_eq_true, decide_eq_true_eq, beq_iff_eq] at accepted
    refine ⟨⟨n, ?_, accepted.1.1, accepted.1.2, accepted.2⟩, fun m x less child => ?_⟩
    · rw [List.getElem?_eq_getElem bound, at']
    · have refused := first m less
      obtain ⟨here, at'⟩ := List.getElem?_eq_some_iff.mp child.found
      simp [child.above, child.parent, child.name, at'] at refused
  · rintro ⟨⟨n, child⟩, first⟩
    obtain ⟨bound, at'⟩ := List.getElem?_eq_some_iff.mp child.found
    refine ⟨(n, j), List.find?_eq_some_iff_getElem.mpr ⟨?_, j, by simpa using bound, ?_, fun m less => ?_⟩, rfl⟩
    · simp [child.above, child.parent, child.name]
    · simp [at']
    · have bound' : m < o.nodes.length := Nat.lt_trans less bound
      by_contra accepted
      simp only [List.getElem_zipIdx, Nat.zero_add, Bool.not_eq_true, Bool.not_eq_false', Bool.and_eq_true,
        decide_eq_true_eq, beq_iff_eq] at accepted
      exact first m o.nodes[m] less
        ⟨List.getElem?_eq_getElem bound', accepted.1.1, accepted.1.2, accepted.2⟩

theorem childNamed?_eq_none_iff {o : Outline} {i : Nat} {name : Text} :
    o.childNamed? i name = none ↔ ∀ j n, ¬o.IsChild i name j n := by
  rw [childNamed?_eq_find?, Option.map_eq_none_iff, List.find?_eq_none]
  constructor
  · intro none j n child
    have member : (n, j) ∈ o.nodes.zipIdx := List.mem_zipIdx_iff_getElem?.mpr child.found
    exact none (n, j) member (by simp [child.above, child.parent, child.name])
  · rintro none ⟨n, j⟩ member accepted
    simp only [Bool.and_eq_true, decide_eq_true_eq, beq_iff_eq] at accepted
    exact none j n ⟨List.mem_zipIdx_iff_getElem?.mp member, accepted.1.1, accepted.1.2, accepted.2⟩

theorem childNamed?_congr {a b : Outline} {i j : Nat} {name : Text}
    (same : ∀ k, k ≤ j → b.nodes[k]? = a.nodes[k]?) (found : a.childNamed? i name = some j) :
    b.childNamed? i name = some j := by
  obtain ⟨⟨n, child⟩, first⟩ := childNamed?_eq_some_iff.mp found
  refine childNamed?_eq_some_iff.mpr ⟨⟨n, ?_, child.above, child.parent, child.name⟩, fun k x less other => ?_⟩
  · rw [same j (Nat.le_refl j), child.found]
  · refine first k x less ⟨?_, other.above, other.parent, other.name⟩
    rw [← same k (Nat.le_of_lt less), other.found]

theorem follow_cons {o : Outline} {i : Nat} {key : Text} {keys : KeyPath} :
    o.follow i (key :: keys) =
      match o.childNamed? i key with
      | some child => o.follow child keys
      | none => (i, key :: keys) := rfl

theorem le_follow {o : Outline} {i p : Nat} {path missing : KeyPath} (h : o.follow i path = (p, missing)) :
    i ≤ p ∧ (p = i ∨ ∃ n name, o.nodes[p]? = some n ∧ n.kind.name? = some name) := by
  induction path generalizing i with
  | nil =>
    obtain ⟨rfl, -⟩ := Prod.mk.inj h
    exact ⟨Nat.le_refl _, .inl rfl⟩
  | cons key keys ih =>
    rw [follow_cons] at h
    split at h
    next child found =>
      obtain ⟨⟨n, isChild⟩, -⟩ := childNamed?_eq_some_iff.mp found
      have := isChild.above
      obtain ⟨le, rfl | named⟩ := ih h
      · exact ⟨by omega, .inr ⟨n, key, isChild.found, isChild.name⟩⟩
      · exact ⟨by omega, .inr named⟩
    next =>
      obtain ⟨rfl, -⟩ := Prod.mk.inj h
      exact ⟨Nat.le_refl _, .inl rfl⟩

theorem exists_key_of_follow {o : Outline} {i child p : Nat} {key : Text} {keys missing : KeyPath}
    (present : o.childNamed? i key = some child) (followed : o.follow i (key :: keys) = (p, missing)) :
    i < p ∧ ∃ n name, o.nodes[p]? = some n ∧ n.kind.name? = some name := by
  obtain ⟨⟨n, isChild⟩, -⟩ := childNamed?_eq_some_iff.mp present
  rw [follow_cons, present] at followed
  obtain ⟨le, origin⟩ := le_follow followed
  refine ⟨Nat.lt_of_lt_of_le isChild.above le, ?_⟩
  rcases origin with rfl | named
  · exact ⟨n, key, isChild.found, isChild.name⟩
  · exact named

theorem length_le_follow {o : Outline} {i p : Nat} {path missing : KeyPath} (h : o.follow i path = (p, missing)) :
    i + path.length ≤ p + missing.length := by
  induction path generalizing i with
  | nil =>
    obtain ⟨rfl, rfl⟩ := Prod.mk.inj h
    exact Nat.le_refl _
  | cons key keys ih =>
    rw [follow_cons] at h
    split at h
    next child found =>
      obtain ⟨⟨n, isChild⟩, -⟩ := childNamed?_eq_some_iff.mp found
      have := isChild.above
      have := ih h
      simp only [List.length_cons]
      omega
    next =>
      obtain ⟨rfl, rfl⟩ := Prod.mk.inj h
      exact Nat.le_refl _

/-- What is missing is the end of the path, and its first key is not there. -/
theorem follow_missing {o : Outline} {i p : Nat} {path missing : KeyPath} (h : o.follow i path = (p, missing)) :
    missing <:+ path ∧ ∀ key keys, missing = key :: keys → o.childNamed? p key = none := by
  induction path generalizing i with
  | nil =>
    obtain ⟨rfl, rfl⟩ := Prod.mk.inj h
    exact ⟨List.suffix_rfl, by simp⟩
  | cons key keys ih =>
    rw [follow_cons] at h
    split at h
    next child found =>
      have := ih h
      exact ⟨this.1.trans (List.suffix_cons _ _), this.2⟩
    next none =>
      obtain ⟨rfl, rfl⟩ := Prod.mk.inj h
      refine ⟨List.suffix_rfl, fun key' keys' eq => ?_⟩
      obtain ⟨rfl, -⟩ := List.cons_eq_cons.mp eq
      exact none

theorem follow_congr {a b : Outline} {i p : Nat} {path missing : KeyPath}
    (same : ∀ k, k ≤ p → b.nodes[k]? = a.nodes[k]?) (h : a.follow i path = (p, missing)) :
    b.follow i path = b.follow p missing := by
  induction path generalizing i with
  | nil =>
    obtain ⟨rfl, rfl⟩ := Prod.mk.inj h
    rfl
  | cons key keys ih =>
    rw [follow_cons] at h
    split at h
    next child found =>
      have le := (le_follow h).1
      rw [follow_cons, childNamed?_congr (fun k bound => same k (Nat.le_trans bound le)) found]
      exact ih h
    next =>
      obtain ⟨rfl, rfl⟩ := Prod.mk.inj h
      rfl

/-- A path resolves along nodes that follow each other, each with the next key and below the one before. -/
theorem follow_of_run {o : Outline} {i : Nat} {keys : KeyPath}
    (run : ∀ t key, keys[t]? = some key → ∃ n, o.nodes[i + 1 + t]? = some n ∧ n.parent = some (i + t) ∧
      n.kind.name? = some key) : o.follow i keys = (i + keys.length, []) := by
  induction keys generalizing i with
  | nil => rfl
  | cons key keys ih =>
    obtain ⟨n, found, parent, name⟩ := run 0 key rfl
    have child : o.childNamed? i key = some (i + 1) := by
      refine childNamed?_eq_some_iff.mpr ⟨⟨n, found, Nat.lt_succ_self i, parent, name⟩, fun k x less child => ?_⟩
      have := child.above
      omega
    rw [follow_cons, child]
    dsimp only
    rw [ih fun t key' at' => ?_, List.length_cons]
    · congr 1
      omega
    · obtain ⟨n, found, parent, name⟩ := run (t + 1) key' at'
      exact ⟨n, by rw [← found]; congr 1; omega, by rw [parent]; congr 1; omega, name⟩

inductive Below (o : Outline) (top : Nat) : Nat → Prop
  | child {i : Nat} {n : Node} : o.nodes[i]? = some n → n.parent = some top → Below o top i
  | deeper {i p : Nat} {n : Node} : o.nodes[i]? = some n → n.parent = some p → Below o top p → Below o top i

end Offside.Outline
