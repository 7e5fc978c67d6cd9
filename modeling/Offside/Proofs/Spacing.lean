import Offside.Outline.Growth
import Offside.Proofs.OffsideRule

/-! New keys stand two columns right of their container. They belong to it as long as none of its containers
stands between the two. -/
namespace Offside

theorem closeTo_zero (opened : List Frame) : closeTo 0 opened = [] := by
  rw [closeTo, List.dropWhile_eq_nil_iff]
  simp

namespace Outline

/-- No key or entry stands just one column right of a key that it belongs to. -/
def Spaced (o : Outline) : Prop :=
  ∀ m ∈ o.nodes, m.isContainer = true → ∀ i ∈ m.parent, ∀ n ∈ o.nodes[i]?, n.kind.name?.isSome = true →
    ∀ column ∈ n.column?, m.column? ≠ some (column + 1)

instance (o : Outline) : Decidable o.Spaced := inferInstanceAs (Decidable (∀ m ∈ o.nodes, _))

/-- Where a key may grow: at the root or below a key. -/
def Hosts (n : Node) : Prop := n.kind = .root ∨ ∃ name, n.kind.name? = some name

variable {items : List Item} {i k : Nat} {n : Node}

theorem kindOf_eq {o : Outline} (found : o.nodes[i]? = some n) : o.kindOf i = n.kind := by
  rw [kindOf, found, Option.map_some, Option.getD_some]

theorem childColumn_of_column? {o : Outline} {c : Nat} (found : o.nodes[i]? = some n) (stands : n.column? = some c) :
    o.childColumn i = c + indentStep := by
  rw [childColumn, kindOf_eq found]
  split
  next root => exact absurd root (Kind.ne_root_of_column? stands)
  next => rw [show n.kind.column? = some c from stands, Option.getD_some]

theorem Hosts.isContainer (hosts : Hosts n) : n.isContainer = true := by
  unfold Node.isContainer
  rcases hosts with root | ⟨name, named⟩
  · rw [root]; rfl
  · obtain ⟨column, colon, kind⟩ := Kind.exists_key_of_name? named
    rw [kind]; rfl

/-- Between open nodes the parents form a chain: the next open node right of `m` is a child of it. -/
theorem parent_of_openAt (proper : Rootless items) {m f column c : Nat} {x : Node}
    (outer : (ofItems items).OpenAt k m n) (inner : (ofItems items).OpenAt k f x) (less : m < f)
    (left : n.column? = some column) (right : x.column? = some c) (next : c ≤ column + 1) :
    x.parent = some m ∧ c = column + 1 := by
  have visible : x.isGap = false := Kind.isGap_of_column? right
  have holds := outer.between f x less inner.above inner.found visible
  have further := (Node.holds_of_column? left right).mp holds
  obtain rfl : c = column + 1 := by omega
  refine ⟨?_, rfl⟩
  obtain ⟨j, item, rfl, -, rfl⟩ := exists_item_of_pos (Nat.lt_of_le_of_lt (Nat.zero_le m) less) inner.found
  have latest := latest_of_column proper j (show item.kind.column? = some (column + 1) from right) none
  have accepted : (ofItems items).OpenAt (j + 1) m n := outer.of_le less (Nat.le_of_lt inner.above)
  rcases latest with ⟨⟨y, opened, left'⟩, greatest⟩ | ⟨-, none⟩
  · refine congrArg some (Nat.le_antisymm ?_ (greatest m ⟨n, accepted, holds⟩))
    by_contra more
    -- Any later open node stands right of `m` as well, and so not left of the next column.
    obtain ⟨c', stands⟩ := opened.column?
    have visible := Kind.isGap_of_column? stands
    have := (Node.holds_of_column? left stands).mp
      (accepted.between _ y (Nat.lt_of_not_le more) opened.above opened.found visible)
    have := (Node.holds_of_column? (x := ⟨item, .none⟩) stands right).mp left'
    omega
  · exact absurd ⟨n, accepted, holds⟩ (none m)

/-- Behind the block of a key, what stands at its child column goes to that key, unless a child of the key that is still
open stands just one column right of it. -/
theorem enclosing_childColumn_cases (proper : Rootless items) {name : Text} (found : (ofItems items).nodes[i]? = some n)
    (named : n.kind.name? = some name) (inside : i ≤ k)
    (right : ∀ c, n.column? = some c → StandRight c ((items.take k).drop i)) :
    ∃ column f, n.column? = some column ∧
      enclosing (closeTo ((ofItems items).childColumn i) (openedAfter [] 1 (items.take k))) = f ∧
      (∀ m x c, (ofItems items).OpenAt (k + 1) m x → x.column? = some c → c < column + indentStep → m ≤ f) ∧
      (f = i ∨ i < f ∧ ∃ x, (ofItems items).OpenAt (k + 1) f x ∧ x.parent = some i ∧ x.column? = some (column + 1)) := by
  obtain ⟨column, colon, kind⟩ := Kind.exists_key_of_name? named
  have stands : n.column? = some column := by rw [Node.column?, kind]; rfl
  have container : n.isContainer = true := by rw [Node.isContainer, kind]; rfl
  have opened := openAt_of_standRight proper found container stands inside (right column stands)
  have valid := (stacked_nil 1).openedAfter (items.take k) Nat.zero_lt_one
  have latest := latest_enclosing (valid.closeTo (column + indentStep))
  rw [childColumn_of_column? found stands]
  generalize enclosing _ = f at latest
  have frame (m c : Nat) : ⟨m, c⟩ ∈ closeTo (column + indentStep) (openedAfter [] 1 (items.take k)) ↔
      (∃ x, (ofItems items).OpenAt (k + 1) m x ∧ x.column? = some c) ∧ c < column + indentStep := by
    rw [mem_closeTo valid, mem_openedAfter_iff_openAt proper]
  have accepted : ∃ c, ⟨i, c⟩ ∈ closeTo (column + indentStep) (openedAfter [] 1 (items.take k)) :=
    ⟨column, (frame i column).mpr ⟨⟨n, opened, stands⟩, Nat.lt_add_of_pos_right Nat.two_pos⟩⟩
  rcases latest with ⟨⟨c, inner⟩, greatest⟩ | ⟨-, none⟩
  · refine ⟨column, f, stands, rfl, fun m x c open' at' left => greatest m ⟨c, (frame m c).mpr ⟨⟨x, open', at'⟩, left⟩⟩, ?_⟩
    rcases Nat.eq_or_lt_of_le (greatest i accepted) with same | further
    · exact .inl same.symm
    · obtain ⟨⟨x, opened', stands'⟩, left⟩ := (frame f c).mp inner
      have close : c ≤ column + 1 := Nat.le_of_lt_succ left
      obtain ⟨parent, rfl⟩ := parent_of_openAt proper opened opened' further stands stands' close
      exact .inr ⟨further, x, opened', parent, stands'⟩
  · exact absurd accepted (none i)

theorem enclosing_childColumn (proper : Rootless items) (spaced : (ofItems items).Spaced)
    (found : (ofItems items).nodes[i]? = some n) (hosts : Hosts n) (inside : i ≤ k)
    (right : ∀ c, n.column? = some c → StandRight c ((items.take k).drop i)) :
    enclosing (closeTo ((ofItems items).childColumn i) (openedAfter [] 1 (items.take k))) = i := by
  rcases hosts with root | ⟨name, named⟩
  · rw [childColumn, kindOf_eq found, root, closeTo_zero, eq_zero_of_root proper found root]
    rfl
  · obtain ⟨column, f, stands, rfl, -, same | ⟨-, x, opened, parent, stands'⟩⟩ :=
      enclosing_childColumn_cases proper found named inside right
    · exact same
    · exact absurd stands' (spaced x (List.mem_of_getElem? opened.found) opened.opener.1 i parent n found
        (by rw [named]; rfl) column stands)

end Outline
end Offside
