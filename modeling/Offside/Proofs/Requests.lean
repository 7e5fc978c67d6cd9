import Mathlib.Data.List.Nodup
import Offside.Proofs.Growth
import Offside.Proofs.KeyPaths

/-! A document that grows from nothing: it holds a key for each beginning of each path that was requested, and nothing
else. -/
namespace Offside

open Text Character

def Text.IsInline (value : Text) : Prop :=
  '\n' ∉ value ∧ '\r' ∉ value ∧ ∀ c ∈ value.head?, c = ' ' ∨ isWhite c = false

instance (value : Text) : Decidable value.IsInline :=
  decidable_of_iff ('\n' ∉ value ∧ '\r' ∉ value ∧ value.head?.all fun c => c = ' ' ∨ isWhite c = false)
    (by cases value <;> simp [Text.IsInline])

theorem Text.IsInline.isValue {value : Text} (h : value.IsInline) : value.IsValue := by
  intro c first
  rcases h.2.2 c first with space | other
  · exact .inl space
  · exact .inr (.inr (.inr other))

/-- The paths of all keys, none for a key that has no path. -/
def Outline.keyPaths (o : Outline) : List (Option KeyPath) :=
  ((List.range o.nodes.length).filter fun i => (o.kindOf i).name?.isSome).map o.keyPath?

namespace Document

/-- Makes one path after the other exist, each with its value. -/
def ensureAll (d : Document) (requests : List (KeyPath × Text)) : Except EditError Document :=
  requests.foldlM (fun d r => (·.1) <$> d.ensurePath r.1 r.2) d

/-- What holds of a document that has grown from nothing. -/
structure Built (d : Document) (requests : List (KeyPath × Text)) : Prop where
  form : d = ⟨[]⟩ ∨ ∃ l ∈ d.lines, l.Written
  noReturns : d.NoReturns
  spaced : d.outline.Spaced
  named : d.outline.Named
  distinct : d.outline.Distinct
  paths : ∀ path, (∃ i, d.outline.Leads path i) ↔ path = [] ∨ ∃ r ∈ requests, path <+: r.1

theorem node_empty {i : Nat} {n : Node} (found : (Document.mk []).outline.nodes[i]? = some n)
    (visible : n.isGap = false) : i = 0 ∧ n = ⟨⟨.root, 0, 0⟩, none⟩ := by
  have nodes : (Document.mk []).outline.nodes = [⟨⟨.root, 0, 0⟩, none⟩, ⟨⟨.gap, 0, 0⟩, some 0⟩] := rfl
  rw [nodes] at found
  match i with
  | 0 => exact ⟨rfl, (Option.some.inj found).symm⟩
  | 1 => obtain rfl := Option.some.inj found; contradiction
  | i + 2 => contradiction

theorem leads_empty {path : KeyPath} {i : Nat} : (Document.mk []).outline.Leads path i ↔ path = [] ∧ i = 0 := by
  constructor
  · intro leads
    cases leads with
    | root => exact ⟨rfl, rfl⟩
    | child _ isChild =>
      obtain ⟨rfl, -⟩ := node_empty isChild.found (Kind.isGap_of_name? isChild.name)
      exact absurd isChild.above (Nat.not_lt_zero _)
  · rintro ⟨rfl, rfl⟩
    exact .root

theorem built_empty : (Document.mk []).Built [] where
  form := .inl rfl
  noReturns := by decide
  spaced := by decide
  named i n found visible := by
    obtain ⟨rfl, -⟩ := node_empty found visible
    exact ⟨[], .root⟩
  distinct path i j leadsI leadsJ := by rw [(leads_empty.mp leadsI).2, (leads_empty.mp leadsJ).2]
  paths path := by simp [leads_empty]

namespace Built

variable {d d' : Document} {requests : List (KeyPath × Text)} {path missing : KeyPath} {value : Text} {base : Nat}

theorem paths_append (way : KeyPath) : (way = [] ∨ ∃ r ∈ requests ++ [(path, value)], way <+: r.1) ↔
    (way = [] ∨ ∃ r ∈ requests, way <+: r.1) ∨ way <+: path := by
  simp [or_and_right, exists_or, or_assoc]

theorem present (b : d.Built requests) (followed : d.outline.follow 0 path = (base, [])) :
    d.Built (requests ++ [(path, value)]) where
  form := b.form
  noReturns := b.noReturns
  spaced := b.spaced
  named := b.named
  distinct := b.distinct
  paths way := by
    obtain ⟨found, eq, leads⟩ := Outline.leads_follow followed .root
    rw [List.append_nil] at eq
    rw [List.nil_append] at leads
    subst eq
    rw [paths_append, ← b.paths way]
    refine ⟨.inl, ?_⟩
    rintro (there | ⟨more, rfl⟩)
    · exact there
    · exact leads.exists_of_append

theorem grow {offset length first : Nat} (b : d.Built requests)
    (followed : d.outline.follow 0 path = (base, missing))
    (grown : d.outline.Grown d'.outline base missing (d.outline.childColumn base) offset length first missing.length)
    (written : ∃ l ∈ d'.lines, l.Written) (noReturns : d'.NoReturns) : d'.Built (requests ++ [(path, value)]) := by
  obtain ⟨found, rfl, leads⟩ := Outline.leads_follow followed .root
  have absent := (Outline.follow_missing followed).2
  exact {
    form := .inr written
    noReturns := noReturns
    spaced := grown.spaced b.spaced
    named := grown.named b.named leads
    distinct := grown.distinct b.distinct absent
    paths := fun way => by rw [paths_append, grown.leads_iff leads, b.paths way]; rfl }

end Built

variable {d d' : Document} {requests : List (KeyPath × Text)} {key : Text} {keys : KeyPath} {value : Text}

/-- The first path of a document is its whole text, and the caret stands behind it. -/
theorem ensurePath_empty (key : Text) (keys : KeyPath) (value : Text) :
    (Document.mk []).ensurePath (key :: keys) value =
      .ok (⟨grownText .lf 0 false (key :: keys) value⟩,
        some (.caret (bytes (grownText .lf 0 false (key :: keys) value)))) := by
  have followed : (Document.mk []).outline.follow 0 (key :: keys) = (0, key :: keys) := rfl
  have grow : (Document.mk []).outline.grow ⟨[]⟩ 0 (key :: keys) value .empty =
      .ok (Draft.empty.insert 0 (grownText .lf 0 false (key :: keys) value)) := by
    rw [Outline.grow, followed]
    rfl
  have made := ensurePath_of_insert grow rfl
  rwa [before, after, List.nil_append, List.append_nil, Nat.zero_add] at made

theorem grown_empty {run : List Item} {path : KeyPath} (h : KeyRun 0 path run) (nonempty : path ≠ [])
    (proper : Rootless run) :
    (Document.mk []).outline.Grown (.ofItems run) 0 path ((Document.mk []).outline.childColumn 0) 1 0 1 path.length := by
  have keeps : (Document.mk []).outline.Keeps (.ofItems run) 1 0 1 run.length := by
    refine ⟨fun i n found visible => ?_, fun j x found visible outside => ?_⟩
    · obtain ⟨rfl, rfl⟩ := node_empty found visible
      rfl
    · obtain ⟨bound, -⟩ := List.getElem?_eq_some_iff.mp found
      rw [Outline.length_ofItems] at bound
      obtain rfl : j = 0 := by omega
      exact ⟨0, _, rfl, rfl, rfl⟩
  have column : (Document.mk []).outline.childColumn 0 = 0 := rfl
  have grown : (Document.mk []).outline.Grown (.ofItems ([] ++ (run ++ []) ++ [])) 0 path 0 1 0 1 (run ++ []).length :=
    Outline.grown_graft h nonempty (by simpa using proper) (standRight_nil _) (Nat.le_refl 0) rfl (by simpa using keeps)
  simpa [h.length, column] using grown

theorem Built.first (b : (Document.mk []).Built requests) (plain : ∀ k ∈ key :: keys, k.IsPlainKey)
    (valid : value.IsInline) :
    (Document.mk (grownText .lf 0 false (key :: keys) value)).Built (requests ++ [(key :: keys, value)]) := by
  obtain ⟨lines, run, rest, eq, path⟩ := Line.read_path plain valid.isValue 0 .lf 0 none
  obtain rfl := path.single valid.1
  have lines' : (Document.mk (grownText .lf 0 false (key :: keys) value)).lines = lines := by
    simpa [lines_eq, spaces, Line.Tail.text, Line.Tail.lines] using eq
  have items : (Document.mk (grownText .lf 0 false (key :: keys) value)).items = run := by
    rw [Document.items, lines', path.items, List.append_nil]
  have proper := rootless_items (Document.mk (grownText .lf 0 false (key :: keys) value))
  rw [items] at proper
  have grown := grown_empty path.keys (List.cons_ne_nil _ _) proper
  rw [← items, ← outline_eq] at grown
  refine b.grow rfl grown ?_ ?_
  · by_contra none
    have gaps := Line.gaps_of_not_written lines fun l member written =>
      none ⟨l, by rwa [lines'], written⟩
    rw [path.items, List.append_nil] at gaps
    obtain ⟨item, colon, at', kind⟩ := path.keys.getElem? (t := 0) rfl
    have := gaps item (List.mem_of_getElem? at')
    simp [kind, Kind.column?] at this
  · rw [NoReturns, lines']
    exact path.ends valid.1 valid.2.1

theorem Built.step (b : d.Built requests) {path : KeyPath} (plain : ∀ k ∈ path, k.IsPlainKey)
    (valid : value.IsInline) :
    ∃ d' selection, d.ensurePath path value = .ok (d', selection) ∧ d'.Built (requests ++ [(path, value)]) := by
  obtain ⟨⟨base, missing⟩, followed⟩ : ∃ p, d.outline.follow 0 path = p := ⟨_, rfl⟩
  cases missing with
  | nil =>
    obtain ⟨selection, eq⟩ := ensurePath_present followed value
    exact ⟨d, selection, eq, b.present followed⟩
  | cons key keys =>
    rcases b.form with rfl | written
    · cases path with
      | nil => simp [Outline.follow] at followed
      | cons first more =>
        exact ⟨_, _, ensurePath_empty first more value, b.first plain valid⟩
    · obtain ⟨d', selection, upper, l, lower, ending, lines, run, rest, inserted, eq, -, split, written, eqLines, path,
        -, grown⟩ := ensurePath_missing followed written b.noReturns b.spaced plain valid.isValue
      obtain rfl := path.single valid.1
      rw [List.append_nil, path.keys.length] at grown
      refine ⟨d', selection, eq, b.grow followed grown ⟨⟨l.start, l.content, ending⟩, ?_, written⟩ fun x member => ?_⟩
      · rw [eqLines]
        simp
      · have noReturns := b.noReturns
        rw [NoReturns, split] at noReturns
        rw [eqLines] at member
        rcases List.mem_append.mp member with early | member
        · exact noReturns x (List.mem_append_left _ early)
        rcases List.mem_cons.mp member with rfl | member
        · exact noReturns l (by simp)
        rcases List.mem_append.mp member with new | late
        · exact path.ends valid.1 valid.2.1 x new
        · obtain ⟨y, below, rfl⟩ := List.mem_map.mp late
          exact noReturns y (List.mem_append_right _ (List.mem_cons_of_mem _ below))

theorem Built.run (b : d.Built requests) {more : List (KeyPath × Text)}
    (plain : ∀ r ∈ more, ∀ k ∈ r.1, k.IsPlainKey) (valid : ∀ r ∈ more, r.2.IsInline) :
    ∃ d', d.ensureAll more = .ok d' ∧ d'.Built (requests ++ more) := by
  induction more generalizing d requests with
  | nil => exact ⟨d, rfl, by rwa [List.append_nil]⟩
  | cons r more ih =>
    obtain ⟨d₁, selection, eq, b₁⟩ := b.step (plain r List.mem_cons_self) (valid r List.mem_cons_self)
    obtain ⟨d', rest, b'⟩ := ih b₁ (fun r member => plain r (List.mem_cons_of_mem _ member))
      (fun r member => valid r (List.mem_cons_of_mem _ member))
    refine ⟨d', ?_, by rwa [List.append_assoc] at b'⟩
    rw [ensureAll, List.foldlM_cons, eq]
    exact rest

theorem exists_built (plain : ∀ r ∈ requests, ∀ k ∈ r.1, k.IsPlainKey) (valid : ∀ r ∈ requests, r.2.IsInline) :
    ∃ d, ensureAll ⟨[]⟩ requests = .ok d ∧ d.Built requests := built_empty.run plain valid

/-- The keys of a built document have the requested paths and their beginnings. -/
theorem Built.mem_keyPaths (b : d.Built requests) {x : Option KeyPath} :
    x ∈ d.outline.keyPaths ↔ ∃ path, x = some path ∧ path ≠ [] ∧ ∃ r ∈ requests, path <+: r.1 := by
  simp only [Outline.keyPaths, List.mem_map, List.mem_filter, List.mem_range]
  constructor
  · rintro ⟨i, ⟨bound, key⟩, rfl⟩
    have found := List.getElem?_eq_getElem bound
    rw [Outline.kindOf_eq found] at key
    obtain ⟨name, named⟩ := Option.isSome_iff_exists.mp key
    obtain ⟨path, leads⟩ := b.named i _ found (Kind.isGap_of_name? named)
    have nonempty : path ≠ [] := by
      rintro rfl
      obtain rfl := Outline.leads_nil_iff.mp leads
      simp [outline_eq, Outline.ofItems, Kind.name?] at key
    exact ⟨path, (Outline.keyPath?_eq_some_iff found).mpr leads, nonempty,
      ((b.paths path).mp ⟨i, leads⟩).resolve_left nonempty⟩
  · rintro ⟨path, rfl, nonempty, requested⟩
    obtain ⟨i, leads⟩ := (b.paths path).mpr (.inr requested)
    cases leads with
    | root => contradiction
    | child parent isChild =>
      obtain ⟨bound, -⟩ := List.getElem?_eq_some_iff.mp isChild.found
      refine ⟨i, ⟨bound, ?_⟩, (Outline.keyPath?_eq_some_iff isChild.found).mpr (parent.child isChild)⟩
      rw [Outline.kindOf_eq isChild.found, isChild.name]
      rfl

theorem Built.nodup_keyPaths (b : d.Built requests) : d.outline.keyPaths.Nodup := by
  refine List.Nodup.map_on (fun i inI j inJ same => ?_) (List.nodup_range.filter _)
  obtain ⟨boundI, keyI⟩ := List.mem_filter.mp inI
  obtain ⟨boundJ, -⟩ := List.mem_filter.mp inJ
  rw [List.mem_range] at boundI boundJ
  have foundI := List.getElem?_eq_getElem boundI
  have foundJ := List.getElem?_eq_getElem boundJ
  rw [Outline.kindOf_eq foundI] at keyI
  obtain ⟨name, named⟩ := Option.isSome_iff_exists.mp keyI
  obtain ⟨path, leads⟩ := b.named i _ foundI (Kind.isGap_of_name? named)
  have at' := (Outline.keyPath?_eq_some_iff foundI).mpr leads
  exact b.distinct path i j leads ((Outline.keyPath?_eq_some_iff foundJ).mp (same.symm.trans at'))

/-- Requests never fail, and the keys are then those of the requested paths and their beginnings, each of them once,
in whatever order the requests come. What earlier requests made is still there after later ones. -/
theorem ensureAll_keyPaths {requests : List (KeyPath × Text)} (plain : ∀ r ∈ requests, ∀ k ∈ r.1, k.IsPlainKey)
    (valid : ∀ r ∈ requests, r.2.IsInline) :
    ∃ d, ensureAll ⟨[]⟩ requests = .ok d ∧ d.outline.keyPaths.Nodup ∧
      (∀ x, x ∈ d.outline.keyPaths ↔ ∃ path, x = some path ∧ path ≠ [] ∧ ∃ r ∈ requests, path <+: r.1) ∧
      (∀ other, other.Perm requests →
        ∃ d', ensureAll ⟨[]⟩ other = .ok d' ∧ d'.outline.keyPaths.Perm d.outline.keyPaths) ∧
      ∀ earlier later, requests = earlier ++ later →
        ∃ d₀, ensureAll ⟨[]⟩ earlier = .ok d₀ ∧ d₀.ensureAll later = .ok d ∧ d₀.outline.keyPaths.Nodup ∧
          d₀.outline.keyPaths ⊆ d.outline.keyPaths := by
  obtain ⟨d, eq, b⟩ := exists_built plain valid
  refine ⟨d, eq, b.nodup_keyPaths, fun x => b.mem_keyPaths, fun other perm => ?_, ?_⟩
  · obtain ⟨d', eq', b'⟩ := exists_built (fun r member => plain r (perm.mem_iff.mp member))
      fun r member => valid r (perm.mem_iff.mp member)
    refine ⟨d', eq', (List.perm_ext_iff_of_nodup b'.nodup_keyPaths b.nodup_keyPaths).mpr fun x => ?_⟩
    rw [b.mem_keyPaths, b'.mem_keyPaths]
    simp [perm.mem_iff]
  · rintro earlier later rfl
    obtain ⟨d₀, eq₀, b₀⟩ := exists_built (fun r member => plain r (List.mem_append_left _ member))
      fun r member => valid r (List.mem_append_left _ member)
    obtain ⟨d₁, eq₁, b₁⟩ := b₀.run (fun r member => plain r (List.mem_append_right _ member))
      fun r member => valid r (List.mem_append_right _ member)
    have same : d₁ = d := by
      rw [ensureAll, List.foldlM_append, ← ensureAll, eq₀] at eq
      exact Except.ok.inj (eq₁.symm.trans eq)
    subst same
    refine ⟨d₀, eq₀, eq₁, b₀.nodup_keyPaths, fun x member => ?_⟩
    obtain ⟨path, rfl, nonempty, r, requested, start⟩ := b₀.mem_keyPaths.mp member
    exact b.mem_keyPaths.mpr ⟨path, rfl, nonempty, r, List.mem_append_left _ requested, start⟩

/-- Two paths with a common beginning, requested around another one. -/
theorem ensureAll_keyPaths_shared :
    let requests : List (KeyPath × Text) :=
      [(["a".toList, "b".toList], "1".toList), (["c".toList], []), (["a".toList, "d".toList], " x".toList)]
    ∃ d, ensureAll ⟨[]⟩ requests = .ok d ∧ d.outline.keyPaths.Nodup ∧
      some ["a".toList, "d".toList] ∈ d.outline.keyPaths ∧ some ["a".toList, "c".toList] ∉ d.outline.keyPaths := by
  intro requests
  obtain ⟨d, eq, nodup, keys, -⟩ := @ensureAll_keyPaths requests (by decide) (by decide)
  refine ⟨d, eq, nodup, (keys _).mpr ⟨_, rfl, by simp, by decide⟩, fun member => ?_⟩
  obtain ⟨path, same, -, requested⟩ := (keys _).mp member
  obtain rfl := Option.some.inj same
  revert requested
  decide

end Document
end Offside
