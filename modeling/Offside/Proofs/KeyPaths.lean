import Mathlib.Data.List.Induction
import Offside.Proofs.KeyRuns
import Offside.Proofs.Spacing

/-! The paths that lead to the keys of an outline. When keys grow, the paths that are there remain, and those of the new
keys are added. -/
namespace Offside.Outline

/-- Keys only lead from the root to node `i`, along this path. -/
inductive Leads (o : Outline) : KeyPath → Nat → Prop
  | root : Leads o [] 0
  | child {path : KeyPath} {i j : Nat} {name : Text} {n : Node} :
      Leads o path i → o.IsChild i name j n → Leads o (path ++ [name]) j

variable {o : Outline} {path : KeyPath} {i j : Nat} {name : Text}

theorem leads_nil_iff : o.Leads [] i ↔ i = 0 := by
  constructor
  · intro h
    generalize eq : ([] : KeyPath) = path at h
    cases h with
    | root => rfl
    | child => simp at eq
  · rintro rfl
    exact .root

theorem leads_concat_iff : o.Leads (path ++ [name]) j ↔ ∃ i n, o.Leads path i ∧ o.IsChild i name j n := by
  constructor
  · intro h
    generalize eq : path ++ [name] = whole at h
    cases h with
    | root => simp at eq
    | child parent isChild =>
      obtain ⟨rfl, last⟩ := List.append_inj' eq rfl
      obtain rfl := List.singleton_inj.mp last
      exact ⟨_, _, parent, isChild⟩
  · rintro ⟨i, n, parent, isChild⟩
    exact .child parent isChild

theorem Leads.path_unique {other : KeyPath} (h : o.Leads path i) (h' : o.Leads other i) : path = other := by
  induction h generalizing other with
  | root =>
    cases h' with
    | root => rfl
    | child _ isChild => exact absurd isChild.above (Nat.not_lt_zero _)
  | child _ isChild ih =>
    cases h' with
    | root => exact absurd isChild.above (Nat.not_lt_zero _)
    | child parent' isChild' =>
      obtain rfl := Option.some.inj (isChild.found.symm.trans isChild'.found)
      obtain rfl := Option.some.inj (isChild.parent.symm.trans isChild'.parent)
      obtain rfl := Option.some.inj (isChild.name.symm.trans isChild'.name)
      rw [ih parent']

theorem Leads.exists_of_append {more : KeyPath} (h : o.Leads (path ++ more) i) : ∃ j, o.Leads path j := by
  induction more using List.reverseRecOn generalizing i with
  | nil => exact ⟨i, by rwa [List.append_nil] at h⟩
  | append_singleton more name ih =>
    rw [← List.append_assoc, leads_concat_iff] at h
    obtain ⟨j, n, parent, -⟩ := h
    exact ih parent

theorem leads_follow {way missing : KeyPath} {base : Nat} (followed : o.follow i path = (base, missing))
    (h : o.Leads way i) : ∃ found, path = found ++ missing ∧ o.Leads (way ++ found) base := by
  induction path generalizing way i with
  | nil =>
    obtain ⟨rfl, rfl⟩ := Prod.mk.inj followed
    exact ⟨[], rfl, by rwa [List.append_nil]⟩
  | cons key keys ih =>
    rw [follow_cons] at followed
    split at followed
    next child at' =>
      obtain ⟨⟨n, isChild⟩, -⟩ := childNamed?_eq_some_iff.mp at'
      obtain ⟨found, rfl, leads⟩ := ih followed (h.child isChild)
      exact ⟨key :: found, rfl, by rwa [List.append_assoc] at leads⟩
    next =>
      obtain ⟨rfl, rfl⟩ := Prod.mk.inj followed
      exact ⟨[], rfl, by rwa [List.append_nil]⟩

theorem lineage_of_parent {n : Node} {p : Nat} (found : o.nodes[i]? = some n) (parent : n.parent = some p)
    (less : p < i) : o.lineage i = o.lineage p ++ [n] := by
  rw [lineage, found]
  simp [parent, less]

theorem lineage_ne_nil {n : Node} (found : o.nodes[i]? = some n) : o.lineage i ≠ [] := by
  rw [lineage, found]
  dsimp only
  split
  · simp
  · split <;> simp

theorem keyPath?_of_parent {n x : Node} {p : Nat} (found : o.nodes[i]? = some n) (parent : n.parent = some p)
    (less : p < i) (above : o.nodes[p]? = some x) :
    o.keyPath? i = (o.keyPath? p).bind fun path => n.kind.name?.map fun name => path ++ [name] := by
  obtain ⟨first, rest, eq⟩ := List.exists_cons_of_ne_nil (lineage_ne_nil above)
  rw [keyPath?, keyPath?, lineage_of_parent found parent less, eq, List.cons_append, List.tail_cons, List.tail_cons,
    List.mapM_append]
  cases rest.mapM (·.kind.name?) with
  | none => rfl
  | some path => cases eq : n.kind.name? <;> simp [eq]

theorem keyPath?_zero (items : List Item) : (ofItems items).keyPath? 0 = some [] := by
  rw [keyPath?, lineage]
  rfl

/-- `keyPath?` finds exactly the paths that lead to nodes. -/
theorem keyPath?_eq_some_iff {items : List Item} {n : Node} (found : (ofItems items).nodes[i]? = some n) :
    (ofItems items).keyPath? i = some path ↔ (ofItems items).Leads path i := by
  induction i using Nat.strong_induction_on generalizing path n with
  | _ i ih =>
    cases i with
    | zero =>
      rw [keyPath?_zero]
      constructor
      · rintro ⟨⟩
        exact .root
      · intro leads
        rw [leads.path_unique .root]
    | succ k =>
      have node := found
      rw [getElem?_ofItems_succ] at node
      obtain ⟨item, -, rfl⟩ := Option.map_eq_some_iff.mp node
      have less := parent_lt found rfl
      obtain ⟨bound, -⟩ := List.getElem?_eq_some_iff.mp found
      have above := List.getElem?_eq_getElem (Nat.lt_trans less bound)
      rw [keyPath?_of_parent found rfl less above, Option.bind_eq_some_iff]
      constructor
      · rintro ⟨way, at', extended⟩
        obtain ⟨name, named, rfl⟩ := Option.map_eq_some_iff.mp extended
        exact .child ((ih _ less above).mp at') ⟨found, less, rfl, named⟩
      · intro leads
        cases leads with
        | child parent isChild =>
          obtain rfl := Option.some.inj (found.symm.trans isChild.found)
          obtain rfl := Option.some.inj isChild.parent
          exact ⟨_, (ih _ less above).mpr parent, by rw [isChild.name]; rfl⟩

/-- Every node that is no gap has a path, so that all of them are keys but the root. -/
def Named (o : Outline) : Prop := ∀ i n, o.nodes[i]? = some n → n.isGap = false → ∃ path, o.Leads path i

/-- No path leads to two nodes. -/
def Distinct (o : Outline) : Prop := ∀ path i j, o.Leads path i → o.Leads path j → i = j

theorem slide_lt_slide_iff {first count i j : Nat} : slide first count i < slide first count j ↔ i < j := by
  refine ⟨fun h => ?_, slide_lt_slide⟩
  unfold slide at h
  split at h <;> split at h <;> omega

theorem slide_inj {first count i j : Nat} (h : slide first count i = slide first count j) : i = j := by
  unfold slide at h
  split at h <;> split at h <;> omega

theorem slide_outside (first count i : Nat) : slide first count i < first ∨ first + count ≤ slide first count i := by
  unfold slide
  split <;> omega

theorem Node.name?_moved (offset length first count : Nat) (n : Node) :
    (n.moved offset length first count).kind.name? = n.kind.name? := by
  obtain ⟨⟨kind, start, stop⟩, parent⟩ := n
  cases kind <;> rfl

theorem Node.column?_moved (offset length first count : Nat) (n : Node) :
    (n.moved offset length first count).column? = n.column? := by
  obtain ⟨⟨kind, start, stop⟩, parent⟩ := n
  cases kind <;> rfl

theorem Node.isContainer_moved (offset length first count : Nat) (n : Node) :
    (n.moved offset length first count).isContainer = n.isContainer := by
  obtain ⟨⟨kind, start, stop⟩, parent⟩ := n
  cases kind <;> rfl

namespace Grown

variable {old new : Outline} {base column offset length first count : Nat} {missing : KeyPath}

theorem isChild_slide (h : old.Grown new base missing column offset length first count) {n : Node}
    (isChild : old.IsChild i name j n) :
    new.IsChild (slide first count i) name (slide first count j) (n.moved offset length first count) where
  found := h.keeps.kept j n isChild.found (Kind.isGap_of_name? isChild.name)
  above := slide_lt_slide isChild.above
  parent := by rw [Node.moved, isChild.parent]; rfl
  name := by rw [Node.name?_moved, isChild.name]

theorem leads_slide (h : old.Grown new base missing column offset length first count) (leads : old.Leads path i) :
    new.Leads path (slide first count i) := by
  induction leads with
  | root =>
    rw [slide_of_lt (Nat.lt_of_le_of_lt (Nat.zero_le base) h.early)]
    exact .root
  | child _ isChild ih => exact ih.child (h.isChild_slide isChild)

theorem leads_created (h : old.Grown new base missing column offset length first count) {way : KeyPath}
    (leads : old.Leads way base) {t : Nat} (bound : t < missing.length) :
    new.Leads (way ++ missing.take (t + 1)) (first + t) := by
  induction t with
  | zero =>
    obtain ⟨x, found, name, -, -, parent⟩ := h.created 0 _ (List.getElem?_eq_getElem bound)
    have start := h.leads_slide leads
    rw [slide_of_lt h.early] at start
    rw [List.take_add_one, List.getElem?_eq_getElem bound]
    exact start.child ⟨found, Nat.lt_of_lt_of_le h.early (Nat.le_add_right _ _), parent, name⟩
  | succ t ih =>
    obtain ⟨x, found, name, -, -, parent⟩ := h.created (t + 1) _ (List.getElem?_eq_getElem bound)
    rw [List.take_add_one, List.getElem?_eq_getElem bound, ← List.append_assoc]
    exact (ih (Nat.lt_of_succ_lt bound)).child ⟨found, by omega, parent, name⟩

theorem node_cases (h : old.Grown new base missing column offset length first missing.length) {x : Node}
    (found : new.nodes[j]? = some x) (visible : x.isGap = false) :
    (∃ i n, old.nodes[i]? = some n ∧ n.isGap = false ∧ j = slide first missing.length i ∧
      x = n.moved offset length first missing.length) ∨
    ∃ t key, missing[t]? = some key ∧ j = first + t ∧ x.kind.name? = some key ∧
      x.column? = some (column + indentStep * t) ∧ x.parent = some (if t = 0 then base else first + t - 1) := by
  by_cases outside : j < first ∨ first + missing.length ≤ j
  · obtain ⟨i, n, at', visible', rfl⟩ := h.keeps.others j x found visible outside
    obtain rfl := Option.some.inj (found.symm.trans (h.keeps.kept i n at' visible'))
    exact .inl ⟨i, n, at', visible', rfl, rfl⟩
  · obtain ⟨t, rfl⟩ := Nat.exists_eq_add_of_le (show first ≤ j by omega)
    have bound : t < missing.length := by omega
    obtain ⟨y, at', name, -, stands, parent⟩ := h.created t _ (List.getElem?_eq_getElem bound)
    obtain rfl := Option.some.inj (found.symm.trans at')
    exact .inr ⟨t, _, List.getElem?_eq_getElem bound, rfl, name, stands, parent⟩

theorem leads_cases (h : old.Grown new base missing column offset length first missing.length)
    (leads : new.Leads path j) :
    (∃ i, old.Leads path i ∧ j = slide first missing.length i) ∨
    ∃ t way, t < missing.length ∧ j = first + t ∧ old.Leads way base ∧ path = way ++ missing.take (t + 1) := by
  have early := h.early
  induction leads with
  | root => exact .inl ⟨0, .root, (slide_of_lt (Nat.lt_of_le_of_lt (Nat.zero_le base) early)).symm⟩
  | @child path p j name x _ isChild ih =>
    rcases h.node_cases isChild.found (Kind.isGap_of_name? isChild.name) with
      ⟨i, n, found, visible, rfl, rfl⟩ | ⟨t, key, at', rfl, named, -, parent⟩
    · have named := isChild.name
      rw [Node.name?_moved] at named
      obtain ⟨q, container, slid⟩ := Option.map_eq_some_iff.mp isChild.parent
      rcases ih with ⟨p, leads, rfl⟩ | ⟨t, way, bound, rfl, -, -⟩
      · obtain rfl := slide_inj slid
        exact .inl ⟨i, leads.child ⟨found, slide_lt_slide_iff.mp isChild.above, container, named⟩, rfl⟩
      · have := slide_outside first missing.length q
        omega
    · obtain rfl := Option.some.inj (named.symm.trans isChild.name)
      obtain rfl := Option.some.inj (parent.symm.trans isChild.parent)
      have bound := (List.getElem?_eq_some_iff.mp at').1
      refine .inr ⟨t, ?_⟩
      cases t with
      | zero =>
        rcases ih with ⟨p, leads, slid⟩ | ⟨t, way, -, eq, -, -⟩
        · have fixed : slide first missing.length base = base := slide_of_lt early
          obtain rfl : base = p := slide_inj (fixed.trans slid)
          exact ⟨path, bound, rfl, leads, by rw [List.take_add_one, at']; rfl⟩
        · simp only [if_pos] at eq
          omega
      | succ t =>
        simp only [if_neg (Nat.succ_ne_zero t)] at ih
        rcases ih with ⟨p, -, slid⟩ | ⟨t', way, -, eq, leads, rfl⟩
        · have := slide_outside first missing.length p
          omega
        · obtain rfl : t' = t := by omega
          exact ⟨way, bound, rfl, leads, by rw [List.take_add_one (i := t' + 1), at', List.append_assoc]; rfl⟩

theorem named (h : old.Grown new base missing column offset length first missing.length) (named : old.Named)
    {way : KeyPath} (leads : old.Leads way base) : new.Named := by
  intro j x found visible
  rcases h.node_cases found visible with ⟨i, n, old, visible, rfl, -⟩ | ⟨t, key, at', rfl, -⟩
  · obtain ⟨path, leads⟩ := named i n old visible
    exact ⟨path, h.leads_slide leads⟩
  · exact ⟨_, h.leads_created leads (List.getElem?_eq_some_iff.mp at').1⟩

theorem not_leads_created (distinct : old.Distinct) {way : KeyPath} (leads : old.Leads way base)
    (absent : ∀ key keys, missing = key :: keys → old.childNamed? base key = none) {t : Nat}
    (bound : t < missing.length) : ¬old.Leads (way ++ missing.take (t + 1)) i := by
  intro other
  obtain ⟨key, keys, rfl⟩ := List.exists_cons_of_length_pos (Nat.lt_of_le_of_lt (Nat.zero_le t) bound)
  rw [List.take_succ_cons, ← List.singleton_append, ← List.append_assoc] at other
  obtain ⟨j, first⟩ := other.exists_of_append
  obtain ⟨b, n, parent, isChild⟩ := leads_concat_iff.mp first
  obtain rfl := distinct way b base parent leads
  exact childNamed?_eq_none_iff.mp (absent key keys rfl) j n isChild

theorem distinct (h : old.Grown new base missing column offset length first missing.length)
    (distinct : old.Distinct) (absent : ∀ key keys, missing = key :: keys → old.childNamed? base key = none) :
    new.Distinct := by
  intro path i j leadsI leadsJ
  rcases h.leads_cases leadsI with ⟨i, old, rfl⟩ | ⟨t, way', bound, rfl, start, rfl⟩
  · rcases h.leads_cases leadsJ with ⟨j, old', rfl⟩ | ⟨t, way', bound, rfl, start, rfl⟩
    · rw [distinct path i j old old']
    · exact absurd old (not_leads_created distinct start absent bound)
  · rcases h.leads_cases leadsJ with ⟨j, old', rfl⟩ | ⟨t', way'', bound', rfl, start', eq⟩
    · exact absurd old' (not_leads_created distinct start absent bound)
    · have same := congrArg List.length eq
      rw [start.path_unique start'] at same
      simp only [List.length_append, List.length_take] at same
      omega

/-- The paths are those that were there and the beginnings of the path that grew. -/
theorem leads_iff (h : old.Grown new base missing column offset length first missing.length) {way : KeyPath}
    (leads : old.Leads way base) :
    (∃ j, new.Leads path j) ↔ (∃ i, old.Leads path i) ∨ path <+: way ++ missing := by
  constructor
  · rintro ⟨j, new⟩
    rcases h.leads_cases new with ⟨i, old, -⟩ | ⟨t, way', -, -, start, rfl⟩
    · exact .inl ⟨i, old⟩
    · rw [leads.path_unique start]
      exact .inr ((List.prefix_append_right_inj way').mpr (List.take_prefix _ _))
  · rintro (⟨i, old⟩ | start)
    · exact ⟨_, h.leads_slide old⟩
    · rcases List.prefix_or_prefix_of_prefix start (List.prefix_append way missing) with ⟨more, rfl⟩ | ⟨more, rfl⟩
      · obtain ⟨i, old⟩ := leads.exists_of_append
        exact ⟨_, h.leads_slide old⟩
      · have inside := (List.prefix_append_right_inj way).mp start
        have bound := inside.length_le
        rw [List.prefix_iff_eq_take.mp inside]
        cases length : more.length with
        | zero =>
          rw [List.take_zero, List.append_nil]
          exact ⟨_, h.leads_slide leads⟩
        | succ t => exact ⟨_, h.leads_created leads (by omega)⟩

/-- New keys stand two columns right of their containers, so that they crowd nothing. -/
theorem spaced (h : old.Grown new base missing (old.childColumn base) offset length first missing.length)
    (spaced : old.Spaced) : new.Spaced := by
  have early := h.early
  intro m member opens i parent n at' key c stands
  obtain ⟨j, found⟩ := List.mem_iff_getElem?.mp member
  obtain ⟨name, named⟩ := Option.isSome_iff_exists.mp key
  have container := h.node_cases at' (Kind.isGap_of_name? named)
  rcases h.node_cases found (Kind.isGap_of_isContainer opens) with
    ⟨j, m, old, -, rfl, rfl⟩ | ⟨t, key, bound, rfl, -, column, parent'⟩
  · obtain ⟨q, belongs, rfl⟩ := Option.map_eq_some_iff.mp parent
    rw [Node.column?_moved]
    rw [Node.isContainer_moved] at opens
    rcases container with ⟨i, n, above, -, slid, rfl⟩ | ⟨t, key, bound, eq, -⟩
    · obtain rfl := slide_inj slid
      rw [Node.name?_moved] at key
      rw [Node.column?_moved] at stands
      exact spaced m (List.mem_of_getElem? old) opens q belongs n above key c stands
    · have := slide_outside first missing.length q
      have := (List.getElem?_eq_some_iff.mp bound).1
      omega
  · rw [column]
    obtain rfl := Option.some.inj (parent'.symm.trans parent)
    cases t with
    | zero =>
      rcases container with ⟨i, n, above, -, slid, rfl⟩ | ⟨t, key, bound, eq, -⟩
      · simp only [↓reduceIte] at slid
        have fixed : slide first missing.length base = base := slide_of_lt early
        obtain rfl : base = i := slide_inj (fixed.trans slid)
        rw [Node.name?_moved] at named
        rw [Node.column?_moved] at stands
        rw [childColumn_of_column? above stands, indentStep]
        simp
      · simp only [↓reduceIte] at eq
        omega
    | succ t =>
      simp only [if_neg (Nat.succ_ne_zero t)] at container
      rcases container with ⟨i, n, -, -, slid, -⟩ | ⟨t', key, bound, eq, -, column', -⟩
      · have := slide_outside first missing.length i
        have := (List.getElem?_eq_some_iff.mp bound).1
        omega
      · obtain rfl : t' = t := by omega
        obtain rfl := Option.some.inj (column'.symm.trans stands)
        rw [indentStep]
        simp
        omega

end Grown

end Offside.Outline
