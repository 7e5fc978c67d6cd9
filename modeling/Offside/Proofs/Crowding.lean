import Offside.Proofs.Descendants
import Offside.Proofs.Growth
import Offside.Proofs.KeyPaths

/-! Keys that leave no room for new ones. A new key stands two columns right of the key that it grows below, so that the
last child of that key takes it over if it opens just one column right of it. -/
namespace Offside

open Text

namespace Outline

/-- The last child of node `i` is a key or an entry just one column right of it. -/
def Crowded (o : Outline) (i : Nat) : Prop :=
  ∃ child ∈ (o.realChildren i).getLast?, child.1.isContainer = true ∧
    ∃ column ∈ (o.kindOf i).column?, child.1.column? = some (column + 1)

instance (o : Outline) (i : Nat) : Decidable (o.Crowded i) := inferInstanceAs (Decidable (∃ _ ∈ (o.realChildren i).getLast?, _))

variable {items : List Item} {i j k c : Nat} {n x : Node}

theorem RealChild.le_of_startsBy (proper : Rootless items) (child : (ofItems items).RealChild i j x)
    (found : (ofItems items).nodes[i]? = some n) (stands : n.column? = some c) (inside : i ≤ k)
    (outside : StartsBy c (items.drop k)) : j ≤ k := by
  by_contra late
  have positive : 0 < j := Nat.lt_of_le_of_lt (Nat.zero_le i) child.above
  obtain ⟨p, parent, latest⟩ := latest_parent proper child.found positive child.visible
  obtain rfl := Option.some.inj (child.parent.symm.trans parent)
  rcases latest with ⟨⟨m, opened, holds⟩, -⟩ | ⟨rfl, -⟩
  · obtain rfl := Option.some.inj (found.symm.trans opened.found)
    obtain ⟨t, item, rfl, at', rfl⟩ := exists_item_of_pos positive child.found
    obtain ⟨u, rfl⟩ := Nat.exists_eq_add_of_le (show k ≤ t by omega)
    obtain ⟨place, standsItem⟩ := Kind.column?_of_isGap (proper item (List.mem_of_getElem? at')) child.visible
    obtain ⟨s, first, y, le, at'', stands', left⟩ :=
      outside.exists_le (show (items.drop k)[u]? = some item by rw [List.getElem?_drop, at']) standsItem
    rw [List.getElem?_drop] at at''
    -- The first item behind the block would have to stand right of the node, as everything up to the child does.
    have node := getElem?_ofItems_succ items (k + s)
    rw [at'', Option.map_some] at node
    have held : n.holds ⟨first, some (enclosingOf (openedAfter [] 1 (items.take (k + s))) first)⟩ = true := by
      rcases Nat.eq_or_lt_of_le le with rfl | less
      · have same := Option.some.inj (child.found.symm.trans node)
        rwa [same] at holds
      · exact opened.between _ _ (by omega) (by omega) node (Kind.isGap_of_column? stands')
    have := (Node.holds_of_column? (x := ⟨first, _⟩) stands stands').mp held
    omega
  · obtain rfl := Option.some.inj ((getElem?_ofItems_zero items).symm.trans found)
    simp [Node.column?, Kind.column?] at stands

theorem RealChild.le_of_openAt (proper : Rootless items) {f : Nat} {y : Node}
    (child : (ofItems items).RealChild i j x) (opened : (ofItems items).OpenAt (k + 1) f y) (above : i < f)
    (early : j ≤ k) : j ≤ f := by
  by_contra late
  have held := opened.between j x (by omega) (by omega) child.found child.visible
  have outer : (ofItems items).Surrounds f j x := .inr ⟨y, opened.of_le (by omega) (by omega), held⟩
  have := outer.le_parent proper child.found (by omega) child.visible child.parent
  omega

/-- Behind the block of a node, what stands at its child column goes to that node unless it is crowded. -/
theorem enclosing_childColumn_eq_iff (proper : Rootless items) (found : (ofItems items).nodes[i]? = some n)
    (hosts : Hosts n) (inside : i ≤ k) (right : ∀ c, n.column? = some c → StandRight c ((items.take k).drop i))
    (outside : ∀ c, n.column? = some c → StartsBy c (items.drop k)) :
    enclosing (closeTo ((ofItems items).childColumn i) (openedAfter [] 1 (items.take k))) = i ↔
      ¬(ofItems items).Crowded i := by
  rcases hosts with root | ⟨name, named⟩
  · have free : ¬(ofItems items).Crowded i := by
      rintro ⟨child, -, -, column, stands, -⟩
      rw [kindOf_eq found, root] at stands
      contradiction
    rw [childColumn, kindOf_eq found, root, closeTo_zero, eq_zero_of_root proper found root]
    rw [eq_zero_of_root proper found root] at free
    simp [free, enclosing]
  · obtain ⟨column, f, stands, eq, greatest, cases⟩ := enclosing_childColumn_cases proper found named inside right
    have outside := outside column stands
    have kind : (ofItems items).kindOf i = n.kind := kindOf_eq found
    rw [eq]
    constructor
    · rintro rfl ⟨⟨x, j⟩, last, container, c, stands', place⟩
      rw [kind] at stands'
      obtain rfl := Option.some.inj (stands.symm.trans stands')
      obtain ⟨child, behind⟩ := getLast?_realChildren_iff.mp last
      -- The last child is still open behind the block, and it stands left of the child column.
      have opened := openAt_of_standRight proper found (Hosts.isContainer (.inr ⟨name, named⟩)) stands inside
        (right column stands)
      have holds : n.holds ⟨⟨.raw (column + indentStep), 0, 0⟩, none⟩ = true :=
        (Node.holds_of_column? stands rfl).mpr (Nat.lt_add_of_pos_right Nat.two_pos)
      have before := child.le_of_startsBy proper found stands inside outside
      have inner := openAt_lastChild proper child container (Nat.lt_succ_of_le before) (.inr ⟨n, opened, holds⟩)
        fun k x other _ => behind k x other
      have := greatest j x (column + 1) inner place (Nat.lt_succ_self _)
      have := child.above
      omega
    · intro free
      rcases cases with same | ⟨above, y, opened, parent, place⟩
      · exact same
      · have child : (ofItems items).RealChild i f y := ⟨opened.found, above, parent, opened.isGap⟩
        have last : ∀ j x, (ofItems items).RealChild i j x → j ≤ f := by
          intro j x other
          exact other.le_of_openAt proper opened above (other.le_of_startsBy proper found stands inside outside)
        have crowded : (ofItems items).Crowded i :=
          ⟨(y, f), getLast?_realChildren_iff.mpr ⟨child, last⟩, opened.opener.1, column, by rw [kind]; exact stands, place⟩
        exact absurd crowded free

theorem Grown.isChild_old {old : Outline} {p base column offset length first count : Nat} {key name : Text}
    {keys : KeyPath} (h : old.Grown (ofItems items) p (key :: keys) column offset length first count)
    (other : base ≠ p) (early : base < first) (child : (ofItems items).IsChild base name j x) :
    ∃ i n, old.IsChild base name i n := by
  have fixed : slide first count base = base := slide_of_lt early
  by_cases outside : j < first ∨ first + count ≤ j
  · obtain ⟨i, n, found, visible, rfl⟩ := h.keeps.others j x child.found (Kind.isGap_of_name? child.name) outside
    obtain rfl := Option.some.inj ((h.keeps.kept i n found visible).symm.trans child.found)
    obtain ⟨q, parent, slid⟩ := Option.map_eq_some_iff.mp child.parent
    obtain rfl : base = q := slide_inj (fixed.trans slid.symm)
    have above := child.above
    rw [← fixed, slide_lt_slide_iff] at above
    exact ⟨i, n, found, above, parent, by rw [← child.name, Node.name?_moved]⟩
  · obtain ⟨t, rfl⟩ := Nat.exists_eq_add_of_le (show first ≤ j by omega)
    by_cases new : t < (key :: keys).length
    · obtain ⟨y, found, -, -, -, parent⟩ := h.created t _ (List.getElem?_eq_getElem new)
      obtain rfl := Option.some.inj (found.symm.trans child.found)
      have container := Option.some.inj (parent.symm.trans child.parent)
      split at container
      · exact absurd container.symm other
      · omega
    · have nested := h.nested _ x (by omega) (by omega) child.found (Kind.isGap_of_name? child.name)
      have := nested.le_parent child.found child.parent
      simp only [List.length_cons] at this
      omega

/-- Every child of a key stands `step` columns right of it, and every child of the root at the margin, gaps aside. -/
def Stepped (o : Outline) (step : Nat) : Prop :=
  ∀ m ∈ o.nodes, m.isGap = false → ∀ i ∈ m.parent, ∀ n ∈ o.nodes[i]?,
    (n.kind = .root → m.column? = some 0) ∧
      (n.kind.name?.isSome = true → ∀ column ∈ n.column?, m.column? = some (column + step))

instance (o : Outline) (step : Nat) : Decidable (o.Stepped step) := inferInstanceAs (Decidable (∀ m ∈ o.nodes, _))

/-- The last child of node `i` is a key or an entry. -/
def EndsOpen (o : Outline) (i : Nat) : Prop := ∃ child ∈ (o.realChildren i).getLast?, child.1.isContainer = true

instance (o : Outline) (i : Nat) : Decidable (o.EndsOpen i) := inferInstanceAs (Decidable (∃ _ ∈ (o.realChildren i).getLast?, _))

/-- Of evenly indented keys, only those of a step of one are crowded: by any key or entry that comes last. -/
theorem Stepped.crowded_iff (proper : Rootless items) {step : Nat} (stepped : (ofItems items).Stepped step)
    (found : (ofItems items).nodes[i]? = some n) (hosts : Hosts n) :
    (ofItems items).Crowded i ↔ step = 1 ∧ 0 < i ∧ (ofItems items).EndsOpen i := by
  have kind : (ofItems items).kindOf i = n.kind := kindOf_eq found
  have place {name : Text} (named : n.kind.name? = some name) {x : Node} {j column : Nat}
      (last : (x, j) ∈ ((ofItems items).realChildren i).getLast?) (stands : n.column? = some column) :
      x.column? = some (column + step) := by
    have child := (getLast?_realChildren_iff.mp last).1
    exact (stepped x (List.mem_of_getElem? child.found) child.visible i child.parent n found).2
      (by rw [named]; rfl) column stands
  constructor
  · rintro ⟨⟨x, j⟩, last, container, column, stands, right⟩
    rw [kind] at stands
    rcases hosts with root | ⟨name, named⟩
    · rw [root] at stands
      contradiction
    · have even := Option.some.inj ((place named last stands).symm.trans right)
      have positive : 0 < i := by
        by_contra zero
        obtain rfl : i = 0 := by omega
        obtain rfl := Option.some.inj ((getElem?_ofItems_zero items).symm.trans found)
        contradiction
      exact ⟨by omega, positive, (x, j), last, container⟩
  · rintro ⟨rfl, positive, ⟨x, j⟩, last, container⟩
    rcases hosts with root | ⟨name, named⟩
    · have := Outline.eq_zero_of_root proper found root
      omega
    · obtain ⟨column, colon, key⟩ := Kind.exists_key_of_name? named
      have stands : n.column? = some column := by rw [Node.column?, key]; rfl
      exact ⟨(x, j), last, container, column, by rw [kind]; exact stands, place named last stands⟩

end Outline

namespace Document

variable {d : Document} {i : Nat} {n : Node} {upper lower : List Line} {l : Line} {key value : Text} {path keys : KeyPath}

theorem BlockEnds.container_iff (ends : d.BlockEnds i n.column? upper l lower) (found : d.outline.nodes[i]? = some n)
    (hosts : Outline.Hosts n) :
    enclosing (closeTo (d.outline.childColumn i) (openedAfter [] 1 ((upper ++ [l]).flatMap Line.items))) = i ↔
      ¬d.outline.Crowded i := by
  have items := items_of_split ends.split
  have upTo : d.items.take ((upper ++ [l]).flatMap Line.items).length = (upper ++ [l]).flatMap Line.items := by
    rw [items, List.take_left]
  have behind : d.items.drop ((upper ++ [l]).flatMap Line.items).length = lower.flatMap Line.items := by
    rw [items, List.drop_left]
  rw [outline_eq] at found ⊢
  rw [← upTo]
  apply Outline.enclosing_childColumn_eq_iff d.rootless_items found hosts ends.inside
  · intro c stands
    rw [upTo]
    exact ends.right c stands
  · intro c stands
    have outside := ends.outside
    rw [stands] at outside
    rw [behind]
    exact outside

theorem follow_of_other {d' : Document} {base p column offset length first count : Nat}
    (followed : d.outline.follow 0 path = (base, key :: keys))
    (kept : ∀ k, k ≤ base → d'.outline.nodes[k]? = d.outline.nodes[k]?)
    (grown : d.outline.Grown d'.outline p (key :: keys) column offset length first count) (early : base < first)
    (other : base ≠ p) : d'.outline.follow 0 path = (base, key :: keys) := by
  have absent : d'.outline.childNamed? base key = none := by
    rw [Outline.childNamed?_eq_none_iff]
    intro j x child
    obtain ⟨i, n, old⟩ := grown.isChild_old other early child
    exact Outline.childNamed?_eq_none_iff.mp ((Outline.follow_missing followed).2 key keys rfl) i n old
  rw [Outline.follow_congr kept followed, Outline.follow_cons, absent]

/-- Missing keys go to the node where the path ends, and then the path resolves, unless that node is crowded. -/
theorem ensurePath_missing_iff {base : Nat} (followed : d.outline.follow 0 path = (base, key :: keys))
    (written : ∃ l ∈ d.lines, l.Written) (noReturns : d.NoReturns) (plain : ∀ k ∈ path, k.IsPlainKey)
    (valid : value.IsValue) :
    ∃ d' selection p offset length first count, d.ensurePath path value = .ok (d', selection) ∧
      d.outline.Grown d'.outline p (key :: keys) (d.outline.childColumn base) offset length first count ∧
      (p = base ↔ ¬d.outline.Crowded base) ∧
      ((d'.outline.follow 0 path).2 = [] ↔ ¬d.outline.Crowded base) := by
  obtain ⟨n, found, hosts⟩ := hosts_follow followed
  obtain ⟨upper, l, lower, ends⟩ := exists_blockEnds found hosts.isContainer written
  have last : l.content.getLast? ≠ some '\r' := noReturns l (by simp [ends.split])
  have plainMissing : ∀ k ∈ key :: keys, k.IsPlainKey := fun k member =>
    plain k ((Outline.follow_missing followed).1.mem member)
  obtain ⟨ending, lines, run, rest, -, pathLines, items⟩ :=
    ends.exists_items last plainMissing valid d.lineBreak (d.outline.childColumn base) rfl
  have container := ends.container_iff found hosts
  generalize belongs : enclosing _ = p at container
  have grown := ends.grown found (List.cons_ne_nil _ _) belongs pathLines items
  refine ⟨_, _, p, _, _, _, _, ends.ensurePath_eq found hosts.isContainer followed value, grown, container, ?_⟩
  constructor
  · intro resolves crowded
    have other : base ≠ p := fun same => container.mp same.symm crowded
    have kept k (bound : k ≤ base) := ends.kept (items.trans (List.append_assoc _ _ _)) bound
    rw [follow_of_other followed kept grown (Nat.lt_succ_of_le ends.inside) other] at resolves
    contradiction
  · intro free
    exact ends.follow_eq pathLines items (belongs.trans (container.mpr free)) followed

/-- In an evenly indented document, missing keys go to the node where the path ends, and then the path resolves. Only a
step of one is too small, and only below a key whose last child is a key or an entry. -/
theorem ensurePath_stepped {step base : Nat} (stepped : d.outline.Stepped step)
    (followed : d.outline.follow 0 path = (base, key :: keys)) (written : ∃ l ∈ d.lines, l.Written)
    (noReturns : d.NoReturns) (plain : ∀ k ∈ path, k.IsPlainKey) (valid : value.IsValue) :
    ∃ d' selection p offset length first count, d.ensurePath path value = .ok (d', selection) ∧
      d.outline.Grown d'.outline p (key :: keys) (d.outline.childColumn base) offset length first count ∧
      (p = base ↔ ¬(step = 1 ∧ 0 < base ∧ d.outline.EndsOpen base)) ∧
      ((d'.outline.follow 0 path).2 = [] ↔ ¬(step = 1 ∧ 0 < base ∧ d.outline.EndsOpen base)) := by
  obtain ⟨n, found, hosts⟩ := hosts_follow followed
  have crowded := Outline.Stepped.crowded_iff d.rootless_items stepped found hosts
  rw [← outline_eq] at crowded
  rw [← crowded]
  exact ensurePath_missing_iff followed written noReturns plain valid

/-- With a step of four the new key goes below `a`, and with a step of one it does so behind a raw line. -/
theorem ensurePath_stepped_wide_narrow :
    let path : KeyPath := ["a".toList, "c".toList]
    let resolves (text : String) := ∃ d' selection,
      (Document.mk text.toList).ensurePath path [] = .ok (d', selection) ∧ (d'.outline.follow 0 path).2 = []
    resolves "a:\n    b:\n" ∧ resolves "a:\n b:\n - d\n x\n" := by
  intro path resolves
  have each (text : String) (step : Nat) (facts :
      let d := Document.mk text.toList
      d.outline.Stepped step ∧ d.outline.follow 0 path = (1, ["c".toList]) ∧ (∃ l ∈ d.lines, l.Written) ∧ d.NoReturns ∧
        ¬(step = 1 ∧ 0 < 1 ∧ d.outline.EndsOpen 1)) : resolves text := by
    obtain ⟨stepped, followed, written, noReturns, roomy⟩ := facts
    obtain ⟨d', selection, -, -, -, -, -, eq, -, -, iff⟩ :=
      @ensurePath_stepped _ _ [] _ _ step 1 stepped followed written noReturns (by decide) (by decide)
    exact ⟨d', selection, eq, iff.mpr roomy⟩
  exact ⟨each _ 4 (by decide), each _ 1 (by decide)⟩

/-- With a step of one, a key that comes last takes over what should go below the key that it belongs to. -/
theorem ensurePath_narrow_unresolved :
    let d : Document := ⟨"a:\n b:\n".toList⟩
    let path : KeyPath := ["a".toList, "c".toList]
    d.outline.Stepped 1 ∧ '\r' ∉ d.text ∧ (∀ k ∈ path, k.IsPlainKey) ∧ d.outline.follow 0 path = (1, ["c".toList]) ∧
      ∃ d' selection, d.ensurePath path [] = .ok (d', selection) ∧ d'.outline.follow 0 path = (1, ["c".toList]) ∧
        ∃ n, d'.outline.nodes[3]? = some n ∧ n.kind.name? = some "c".toList ∧ n.parent = some 2 := by
  intro d path
  have eq : d.ensurePath path [] = .ok (⟨"a:\n b:\n  c:\n".toList⟩, some (.caret 11)) :=
    @ensurePath_of_insert d path [] "\n  c:".toList 6 (by decide +kernel) (by decide)
  exact ⟨by decide, by decide, by decide, by decide, _, _, eq, by decide, _, rfl, by decide, by decide⟩

end Document
end Offside
