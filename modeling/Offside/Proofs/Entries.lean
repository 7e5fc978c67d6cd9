import Offside.Proofs.CaretLines
import Offside.Proofs.Lookups

/-! Sequence entries. What is written behind an entry on its line, and what would be written there, lies in the entry. No
dotted name reaches in, so nothing is proposed. -/
namespace Offside

open Text Character

theorem Line.exists_items_entry {l : Line} {n : Nat} {rest : Text} (content : l.content = spaces n ++ '-' :: ' ' :: rest) :
    ∃ more, l.items = l.item (.entry n) n :: more := by
  have written : indentation l.content = some n := by
    have dash : indentation ('-' :: ' ' :: rest) = some 0 := by
      simp [indentation_cons, show isWhite '-' = false by decide]
    rw [content, indentation_spaces, dash, Option.map_some, Nat.zero_add]
  have space : (' ' :: rest).head?.all (· == ' ') = true := rfl
  rw [items_written content written, if_neg (by decide), itemsFrom, if_pos space]
  exact ⟨_, rfl⟩

theorem Outline.inEntry_of_openAt {items : List Item} (proper : Rootless items) {i m n : Nat} {x y : Node}
    (found : (ofItems items).nodes[i]? = some y) (above : m < i) (opened : (ofItems items).OpenAt (i + 1) m x)
    (entry : x.kind = .entry n) : (ofItems items).InEntry i :=
  ⟨m, x, n, .inr ((below_iff proper found).mpr ⟨above, .inr ⟨x, opened⟩⟩), opened.found, entry⟩

namespace Document

variable {d : Document} {l : Line} {m n column offset : Nat} {x y : Node}

theorem holds_of_begins (onLines : l ∈ d.lines) (onLine : x.toItem ∈ l.items) (member : y.toItem ∈ d.items)
    (visible : x.isGap = false) (visible' : y.isGap = false) (behind : x.start < y.start) (ends : y.start ≤ l.stop) :
    x.holds y = true := by
  have inside : y.toItem ∈ l.items := by
    obtain ⟨z, onLines', onLine'⟩ := List.mem_flatMap.mp member
    have := Line.bounds_of_mem_items onLine
    have := Line.bounds_of_mem_items onLine'
    exact mem_items_of_covers onLines (by omega) ends member (Nat.le_refl _) (by omega)
  obtain ⟨a, placed⟩ := Line.placed_of_isGap onLine visible
  obtain ⟨b, placed'⟩ := Line.placed_of_isGap inside visible'
  have := placed.start
  have := placed'.start
  exact (Node.holds_of_column? placed.stands placed'.stands).mpr (by omega)

theorem exists_places (d : Document) (offset : Nat) :
    ∃ k, ∀ j x, d.outline.nodes[j]? = some x → 0 < j → (x.start < offset ↔ j ≤ k) := by
  have ordered : (d.outline.nodes.map Node.toItem).Pairwise fun a b => a.start ≤ b.start :=
    List.pairwise_map.mpr d.pairwise_start
  rw [map_toItem_outline, List.pairwise_cons] at ordered
  have split : d.items.takeWhile (·.start < offset) ++ d.items.dropWhile (·.start < offset) = d.items :=
    List.takeWhile_append_dropWhile
  have first := List.head?_dropWhile_not (·.start < offset) d.items
  have early : ∀ item ∈ d.items.takeWhile (·.start < offset), item.start < offset :=
    fun item member => by simpa using List.mem_takeWhile_imp member
  generalize d.items.takeWhile (·.start < offset) = front at split early
  generalize d.items.dropWhile (·.start < offset) = back at split first
  have late : ∀ item ∈ back, offset ≤ item.start := by
    intro item member
    cases back with
    | nil => contradiction
    | cons y back =>
      have begins : offset ≤ y.start := by simpa using first
      have rises := (List.pairwise_cons.mp (List.pairwise_append.mp (split ▸ ordered.2)).2.1).1
      rcases List.mem_cons.mp member with rfl | later
      · exact begins
      · exact Nat.le_trans begins (rises item later)
  refine ⟨front.length, fun j x found positive => ?_⟩
  obtain ⟨i, item, rfl, at', rfl⟩ := Outline.exists_item_of_pos positive found
  show item.start < offset ↔ i < front.length
  rw [← split] at at'
  by_cases less : i < front.length
  · rw [List.getElem?_append_left less] at at'
    exact iff_of_true (early item (List.mem_of_getElem? at')) less
  · rw [List.getElem?_append_right (Nat.le_of_not_lt less)] at at'
    exact iff_of_false (Nat.not_lt.mpr (late item (List.mem_of_getElem? at'))) less

section Entries

variable (onLines : l ∈ d.lines) (found : d.outline.nodes[m]? = some x) (onLine : x.toItem ∈ l.items)
  (entry : x.kind = .entry n)

include onLines found onLine entry

theorem openAt_of_begins {k : Nat} (above : m < k)
    (ends : ∀ j y, m < j → j < k → d.outline.nodes[j]? = some y → y.start ≤ l.stop) : d.outline.OpenAt k m x := by
  have stands : x.column? = some n := by rw [Node.column?, entry]; rfl
  have visible : x.isGap = false := Kind.isGap_of_column? stands
  have positive := Outline.pos_of_column? found stands
  have container : x.isContainer = true := by rw [Node.isContainer, entry]; rfl
  refine ⟨found, ⟨container, Kind.ne_root_of_column? stands⟩, above, fun j y lower upper other visible' => ?_⟩
  have here := Outline.getElem?_pred_of_pos found positive
  have there := Outline.getElem?_pred_of_pos other (Nat.lt_trans positive lower)
  have behind := (start_lt_start_iff here there visible visible').mpr (by omega)
  exact holds_of_begins onLines onLine (List.mem_of_getElem? there) visible visible' behind (ends j y lower upper other)

theorem inEntry_of_begins {i : Nat} (other : d.outline.nodes[i]? = some y) (visible' : y.isGap = false)
    (behind : x.start < y.start) (ends : y.start ≤ l.stop) : d.outline.InEntry i := by
  have stands : x.column? = some n := by rw [Node.column?, entry]; rfl
  have visible : x.isGap = false := Kind.isGap_of_column? stands
  have positive := Outline.pos_of_column? found stands
  have later : 0 < i := by
    refine Nat.pos_of_ne_zero ?_
    rintro rfl
    obtain rfl := Option.some.inj ((Outline.getElem?_ofItems_zero d.items).symm.trans other)
    exact Nat.not_lt_zero _ behind
  have above := (start_lt_start_iff (Outline.getElem?_pred_of_pos found positive)
    (Outline.getElem?_pred_of_pos other later) visible visible').mp behind
  have above : m < i := by omega
  obtain ⟨boundI, here⟩ := List.getElem?_eq_some_iff.mp other
  have opened := openAt_of_begins onLines found onLine entry (Nat.lt_succ_of_lt above) fun j z _ upper between => by
    obtain ⟨boundJ, rfl⟩ := List.getElem?_eq_some_iff.mp between
    rcases Nat.eq_or_lt_of_le (Nat.le_of_lt_succ upper) with rfl | earlier
    · rwa [here]
    · exact Nat.le_trans (List.pairwise_iff_getElem.mp d.pairwise_start j i boundJ boundI earlier) (here ▸ ends)
  exact Outline.inEntry_of_openAt d.rootless_items other above opened entry

/-- A line that would begin behind an entry on its line, and right of it, would lie in it. -/
theorem inEntry_context (behind : x.start < offset) (ends : offset ≤ l.stop) (right : n < column) :
    d.outline.InEntry (d.outline.context offset column) := by
  obtain ⟨k, places⟩ := d.exists_places offset
  have stands : x.column? = some n := by rw [Node.column?, entry]; rfl
  have positive := Outline.pos_of_column? found stands
  have before := (places m x found positive).mp behind
  have opened := openAt_of_begins onLines found onLine entry (Nat.lt_succ_of_le before) fun j y lower upper between =>
    Nat.le_trans (Nat.le_of_lt ((places j y between (Nat.lt_trans positive lower)).mpr (Nat.le_of_lt_succ upper))) ends
  have latest := @Outline.latest_of_column _ d.rootless_items k column ⟨.raw column, 0, 0⟩ rfl none
  have context : d.outline.context offset column = _ :=
    Outline.context_eq d.rootless_items fun j y between positive _ => places j y between positive
  rw [context]
  have holds : x.holds ⟨⟨.raw column, 0, 0⟩, none⟩ = true := (Node.holds_of_column? stands rfl).mpr right
  rcases latest with ⟨⟨y, inner, -⟩, greatest⟩ | ⟨-, nothing⟩
  · rcases Nat.eq_or_lt_of_le (greatest m ⟨x, opened, holds⟩) with same | further
    · exact ⟨m, x, n, .inl same, found, entry⟩
    · have opened := opened.of_le (Nat.lt_succ_of_lt further) inner.above
      exact Outline.inEntry_of_openAt d.rootless_items inner.found further opened entry
  · exact absurd ⟨x, opened, holds⟩ (nothing m)

end Entries

/-- Behind the dash of an entry, both the place of a key and the key before a colon lie in the entry. -/
theorem CaretOn.inEntry {caret : Nat} {c : CaretContext} {lead behind rest : Text} (on : d.CaretOn caret c l lead behind)
    (content : l.content = spaces n ++ '-' :: ' ' :: rest) (after : l.start + n < c.word.start) :
    (c.place = .key → d.outline.InEntry (d.outline.context c.word.start c.column)) ∧
      ∀ colon i, c.place = .value colon → d.outline.keyAtColon? colon = some i → d.outline.InEntry i := by
  obtain ⟨more, items⟩ := Line.exists_items_entry content
  have first : l.item (.entry n) n ∈ l.items := by
    rw [items]
    exact List.mem_cons_self
  obtain ⟨m, x, found, same⟩ := exists_node_of_mem_items on.member first
  have entry : x.kind = .entry n := by rw [same]; rfl
  have begins : x.start = l.start + n := by rw [same]; rfl
  rw [← same] at first
  constructor
  · intro place
    obtain ⟨-, leads⟩ := CaretPlace.of_eq_key_iff.mp (on.place.symm.trans place)
    obtain ⟨t, whole⟩ := on.exists_content rfl (leadsToKey_getLast? leads)
    have right : n < c.column := by
      have := on.start
      have := on.column
      omega
    have ends : c.word.start ≤ l.stop := by
      rw [on.start, Line.stop, Line.length, whole, bytes_append]
      omega
    exact inEntry_context on.member found first entry (begins ▸ after) ends right
  · intro colon i place owner
    obtain ⟨y, column, name, other, key, inside⟩ := on.exists_key place owner
    have visible : y.isGap = false := by rw [Node.isGap, key]; rfl
    have later : y.toItem ∈ more := by
      rw [items] at inside
      refine (List.mem_cons.mp inside).resolve_left fun same => ?_
      have kind : y.kind = .entry n := by rw [same]; rfl
      rw [key] at kind
      contradiction
    have before := l.pairwise_beginsBefore
    rw [items, List.pairwise_cons] at before
    have rises := before.1 _ later rfl visible
    exact inEntry_of_begins on.member found first entry other visible (by rw [begins]; exact rises)
      (Line.bounds_of_mem_items inside).2.1

end Document

/-- No path is read upwards out of an entry. -/
theorem Outline.keyPath?_of_inEntry {items : List Item} (proper : Rootless items) {i : Nat}
    (inside : (ofItems items).InEntry i) : (ofItems items).keyPath? i = none := by
  obtain ⟨n, found⟩ : ∃ n, (ofItems items).nodes[i]? = some n := by
    obtain ⟨j, x, column, rfl | below, at', -⟩ := inside
    · exact ⟨x, at'⟩
    · exact below.exists_node
  exact (keyPath?_eq_none_iff proper found).mpr (.inr inside)

namespace Engine

variable {e : Engine} {d : Document} {c : CaretContext} {caret : Nat}

theorem candidates_inEntry (catalogue : Catalogue)
    (key : c.place = .key → d.outline.InEntry (d.outline.context c.word.start c.column))
    (value : ∀ colon i, c.place = .value colon → d.outline.keyAtColon? colon = some i → d.outline.InEntry i) :
    e.candidates catalogue d c = [] := by
  unfold candidates
  cases place : c.place with
  | key =>
    have unreached := Outline.keyPath?_of_inEntry d.rootless_items (key place)
    rw [← Document.outline_eq] at unreached
    simp [keyProposals, unreached]
  | value colon =>
    cases owner : d.outline.keyAtColon? colon with
    | none => simp [valueProposals, owner]
    | some i =>
      have unreached := Outline.keyPath?_of_inEntry d.rootless_items (value colon i place owner)
      rw [← Document.outline_eq] at unreached
      simp [valueProposals, owner, unreached]
  | elsewhere => rfl

/-- Nothing is proposed inside a sequence entry: neither behind the dash on its line, nor for a key that would lie in it, nor
for the value of a key that does. -/
theorem proposals_inEntry (reads : d.caretContext? caret = some c)
    (inside : (∃ l n rest, d.lineAround caret = .ok l ∧ l.content = spaces n ++ '-' :: ' ' :: rest ∧
        l.start + n < c.word.start) ∨
      c.place = .key ∧ d.outline.InEntry (d.outline.context c.word.start c.column) ∨
      ∃ colon i, c.place = .value colon ∧ d.outline.keyAtColon? colon = some i ∧ d.outline.InEntry i) :
    e.proposals d caret = [] := by
  have none (catalogue : Catalogue) : e.candidates catalogue d c = [] := by
    rcases inside with ⟨l, n, rest, around, content, after⟩ | ⟨place, inner⟩ | ⟨colon, i, place, owner, inner⟩
    · obtain ⟨lead, behind, on⟩ := Document.exists_caretOn reads around
      obtain ⟨key, value⟩ := on.inEntry content after
      exact candidates_inEntry catalogue key value
    · exact candidates_inEntry catalogue (fun _ => inner) fun colon i other => by simp [place] at other
    · refine candidates_inEntry catalogue (fun other => by simp [place] at other) fun colon' i' place' owner' => ?_
      obtain rfl := CaretPlace.value.inj (place.symm.trans place')
      obtain rfl := Option.some.inj (owner.symm.trans owner')
      exact inner
  refine List.eq_nil_iff_forall_not_mem.mpr fun p proposed => ?_
  obtain ⟨catalogue, candidate⟩ := mem_candidates reads proposed
  rw [none catalogue] at candidate
  contradiction

/-- Behind a dash, on a line below it, and behind the colon of a key there. -/
theorem proposals_inEntry_nested :
    let d : Document := ⟨"k:\n  - a: \n    b\n    a: t\n".toList⟩
    let e : Engine := ⟨some (.ofList [.named "k.a".toList, .named "a".toList, .named "b".toList]), none, 200⟩
    e.proposals d 10 = [] ∧ e.proposals d 16 = [] ∧ e.proposals d 25 = [] := by
  intro d e
  have entry : d.outline.nodes[2]? = some ⟨⟨.entry 2, 5, 10⟩, some 1⟩ := by decide
  have key : d.outline.nodes[5]? = some ⟨⟨.key 4 "a".toList 22, 21, 25⟩, some 2⟩ := by decide
  have context : d.outline.context 15 4 = 2 := by decide +kernel
  have reads : d.caretContext? 10 = some ⟨.value 8, ⟨10, 10⟩, [], 7⟩ := by decide
  have reads' : d.caretContext? 16 = some ⟨.key, ⟨15, 16⟩, ['b'], 4⟩ := by decide
  have reads'' : d.caretContext? 25 = some ⟨.value 22, ⟨24, 25⟩, ['t'], 7⟩ := by decide
  refine ⟨?_, ?_, ?_⟩
  · let l : Line := ⟨3, "  - a: ".toList, some .lf⟩
    have around : d.lineAround 10 = .ok l := by decide
    exact proposals_inEntry reads (.inl ⟨l, 2, "a: ".toList, around, rfl, by decide⟩)
  · exact proposals_inEntry reads' (.inr (.inl ⟨rfl, 2, _, 2, .inl context.symm, entry, rfl⟩))
  · have owner : d.outline.keyAtColon? 22 = some 5 := by decide
    exact proposals_inEntry reads'' (.inr (.inr ⟨22, 5, rfl, owner, 2, _, 2, .inr (.child key rfl), entry, rfl⟩))

end Engine
end Offside
