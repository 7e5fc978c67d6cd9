import Offside.Proofs.Blocks
import Offside.Proofs.Drafts
import Offside.Proofs.KeyPaths
import Offside.Proofs.PlainKeys

/-! The lines of keys. A key stands before a colon that white space or the end of the line sets apart, and one that has a
path stands alone on its line. What follows its colon may change as long as the colon is still set apart. -/
namespace Offside

open Text

/-- The text is empty, or a blank, a tab or a line break comes first. -/
def Text.SetsApart : Text → Prop
  | [] => True
  | c :: t => c = ' ' ∨ c = '\t' ∨ c = '\n' ∨ c = '\r' ∧ t.head? = some '\n'

instance : (t : Text) → Decidable t.SetsApart
  | [] => inferInstanceAs (Decidable True)
  | _ :: _ => inferInstanceAs (Decidable (_ ∨ _))

/-- There is a key with this path, and its colon stands at this offset. -/
def Outline.HasKey (o : Outline) (colon : Nat) (path : KeyPath) : Prop :=
  ∃ i n, o.nodes[i]? = some n ∧ n.kind.colon? = some colon ∧ o.keyPath? i = some path

namespace Line

theorem setsApart_of_separates {t : Text} (separate : separates t = true) (tail : Tail) : SetsApart (t ++ tail.text) := by
  cases t with
  | nil =>
    match tail with
    | none => trivial
    | some (.lf, rest) => exact .inr (.inr (.inl rfl))
    | some (.crlf, rest) => exact .inr (.inr (.inr ⟨rfl, rfl⟩))
  | cons c t =>
    have blank : c = ' ' ∨ c = '\t' := by simpa [separates] using separate
    rcases blank with space | tab
    · exact .inl space
    · exact .inr (.inl tab)

theorem Tail.exists_of_append_eq {p rest content : Text} {tail : Tail} (noBreak : '\n' ∉ p) (last : p.getLast? ≠ some '\r')
    (text : p ++ rest = content ++ tail.text) : ∃ t, content = p ++ t ∧ rest = t ++ tail.text := by
  rcases List.append_eq_append_iff.mp text with ⟨t, whole, behind⟩ | ⟨t, split, ending⟩
  · exact ⟨t, whole, behind⟩
  · cases t with
    | nil => exact ⟨[], by simpa using split.symm, by simpa using ending.symm⟩
    | cons c t =>
      subst split
      match tail with
      | none => contradiction
      | some (.lf, below) =>
        obtain rfl := (List.cons_eq_cons.mp ending).1
        simp at noBreak
      | some (.crlf, below) =>
        obtain ⟨rfl, more⟩ := List.cons_eq_cons.mp ending
        cases t with
        | nil => simp at last
        | cons d t =>
          obtain rfl := (List.cons_eq_cons.mp more).1
          simp at noBreak

theorem separates_of_setsApart {t : Text} {tail : Tail} (apart : SetsApart (t ++ tail.text)) (oneLine : '\n' ∉ t)
    (unreturned : ∀ below, tail = some (.lf, below) → t.getLast? ≠ some '\r') : separates t = true := by
  cases t with
  | nil => rfl
  | cons c t =>
    rcases apart with rfl | rfl | rfl | ⟨rfl, next⟩
    · rfl
    · rfl
    · simp at oneLine
    · cases t with
      | nil =>
        match tail with
        | none => contradiction
        | some (.crlf, below) => simp [Tail.text, LineBreak.text] at next
        | some (.lf, below) =>
          have ends := unreturned below rfl
          contradiction
      | cons d t =>
        obtain rfl : d = '\n' := by simpa using next
        simp at oneLine

/-- A text that no carriage return ends begins a line. What follows it goes on that line up to the next ending, so that both
set the text apart or neither does. -/
theorem read_behind {p : Text} (start : Nat) (noBreak : '\n' ∉ p) (last : p.getLast? ≠ some '\r') (rest : Text) :
    ∃ t ending lower, read start (p ++ rest) = ⟨start, p ++ t, ending⟩ :: lower ∧
      (separates t = true ↔ rest.SetsApart) := by
  obtain ⟨⟨place, content, ending⟩, lower, split⟩ := List.exists_cons_of_ne_nil (read_ne_nil start (p ++ rest))
  obtain ⟨above, tail, cut⟩ := exists_cut (show _ = [] ++ _ :: lower from split)
  obtain rfl := cut.whole.eq_nil
  obtain ⟨t, rfl, rfl⟩ := Tail.exists_of_append_eq noBreak last cut.text
  obtain rfl : place = start := by simpa using cut.begins
  refine ⟨t, ending, lower, split, fun separate => setsApart_of_separates separate tail, fun apart => ?_⟩
  refine separates_of_setsApart apart (fun feed => cut.oneLine (List.mem_append_right p feed)) ?_
  rintro below rfl returned
  have ends := cut.getLast?_content_ne split
  simp [List.getLast?_append, returned] at ends

theorem mem_itemsFrom {l : Line} {column : Nat} {t : Text} {item : Item} (member : item ∈ l.itemsFrom column t) :
    (∃ c, item.kind = .entry c) ∨ ∃ a rest, t = a ++ rest ∧ item = l.leaf (column + bytes a) rest := by
  induction t generalizing column with
  | nil => exact .inr ⟨[], [], rfl, by simpa [itemsFrom] using member⟩
  | cons c t ih =>
    have later (size : c.utf8Size = 1) (member : item ∈ l.itemsFrom (column + 1) t) :
        (∃ c, item.kind = .entry c) ∨ ∃ a rest, c :: t = a ++ rest ∧ item = l.leaf (column + bytes a) rest := by
      rcases ih member with entry | ⟨a, rest, rfl, rfl⟩
      · exact .inl entry
      · exact .inr ⟨c :: a, rest, rfl, by rw [bytes_cons, size, Nat.add_assoc]⟩
    by_cases space : c = ' '
    · subst space
      rw [itemsFrom] at member
      exact later rfl member
    · by_cases entry : c = '-' ∧ t.head?.all (· == ' ') = true
      · obtain ⟨rfl, opens⟩ := entry
        rw [itemsFrom, if_pos opens] at member
        rcases List.mem_cons.mp member with rfl | member
        · exact .inl ⟨column, rfl⟩
        · split at member
          · exact later rfl member
          · contradiction
      · rw [itemsFrom_leaf _ _ space entry, List.mem_singleton] at member
        exact .inr ⟨[], c :: t, rfl, member⟩

theorem exists_key {l : Line} {item : Item} {column colon : Nat} {name : Text} (member : item ∈ l.items)
    (key : item.kind = .key column name colon) :
    ∃ a part t, l.content = a ++ part ++ ':' :: t ∧ separates t = true ∧ isBlank part = false ∧ name = trimEnd part ∧
      item.start = l.start + bytes a ∧ colon = l.start + bytes a + bytes part := by
  cases indented : indentation l.content with
  | none =>
    obtain ⟨column, -, single⟩ := items_gap indented
    obtain rfl : item = l.item .gap column := by simpa [single] using member
    contradiction
  | some column =>
    rw [items_of_indentation indented] at member
    split at member
    next =>
      obtain rfl := List.mem_singleton.mp member
      contradiction
    next =>
      rcases mem_itemsFrom member with ⟨c, entry⟩ | ⟨a, rest, content, rfl⟩
      · rw [entry] at key
        contradiction
      · unfold leaf at key ⊢
        split at key
        next part found =>
          obtain ⟨t, rfl, separate, written⟩ := keyPart?_eq_some found
          obtain ⟨-, rfl, rfl⟩ := Kind.key.inj key
          exact ⟨a, part, t, by rw [content, List.append_assoc], separate, written, rfl, by simp [item], by simp⟩
        next => contradiction

theorem exists_colon {l : Line} {item : Item} {colon : Nat} (member : item ∈ l.items)
    (at' : item.kind.colon? = some colon) :
    ∃ a t, l.content = a ++ ':' :: t ∧ colon = l.start + bytes a ∧ separates t = true := by
  obtain ⟨column, name, key⟩ := Kind.exists_key_of_colon? at'
  obtain ⟨a, part, t, content, separate, -, -, -, place⟩ := exists_key member key
  exact ⟨a ++ part, t, content, by rw [place, bytes_append, Nat.add_assoc], separate⟩

theorem exists_entry_before {l : Line} {j : Nat} {item : Item} (found : l.items[j + 1]? = some item) :
    ∃ entry c, l.items[j]? = some entry ∧ entry.kind = .entry c := by
  have inner {column : Nat} {t : Text} (j : Nat) {item : Item} (found : (l.itemsFrom column t)[j + 1]? = some item) :
      ∃ entry c, (l.itemsFrom column t)[j]? = some entry ∧ entry.kind = .entry c := by
    induction t generalizing column j with
    | nil => simp [itemsFrom] at found
    | cons c t ih =>
      by_cases space : c = ' '
      · subst space
        rw [itemsFrom] at found ⊢
        exact ih j found
      · by_cases entry : c = '-' ∧ t.head?.all (· == ' ') = true
        · obtain ⟨rfl, opens⟩ := entry
          rw [itemsFrom, if_pos opens] at found ⊢
          cases j with
          | zero => exact ⟨_, column, rfl, rfl⟩
          | succ j =>
            rw [List.getElem?_cons_succ] at found ⊢
            split at found
            next written =>
              rw [if_pos written]
              exact ih j found
            next => simp at found
        · rw [itemsFrom_leaf _ _ space entry] at found
          simp at found
  cases indented : indentation l.content with
  | none =>
    obtain ⟨column, -, single⟩ := items_gap indented
    simp [single] at found
  | some column =>
    rw [items_of_indentation indented] at found ⊢
    split at found
    next => simp at found
    next plain =>
      rw [if_neg plain]
      exact inner j found

theorem pairwise_entry (l : Line) : l.items.Pairwise fun a _ => ∃ column, a.kind = .entry column := by
  refine List.pairwise_iff_getElem.mpr fun j k boundJ boundK less => ?_
  have next : l.items[j + 1]? = some _ := List.getElem?_eq_getElem (by omega)
  obtain ⟨entry, column, found, kind⟩ := exists_entry_before next
  obtain rfl := Option.some.inj ((List.getElem?_eq_getElem boundJ).symm.trans found)
  exact ⟨column, kind⟩

theorem exists_leaf_of_first {l : Line} {item : Item} {colon : Nat} (first : l.items[0]? = some item)
    (at' : item.kind.colon? = some colon) :
    ∃ column c rest part, l.content = spaces column ++ c :: rest ∧ c ≠ ' ' ∧ c ≠ '\t' ∧ c ≠ '#' ∧
      ¬(c = '-' ∧ rest.head?.all (· == ' ') = true) ∧ keyPart? (c :: rest) = some part ∧
      item = l.item (.key column (trimEnd part) (l.start + column + bytes part)) column := by
  cases indented : indentation l.content with
  | none =>
    obtain ⟨column, -, single⟩ := items_gap indented
    rw [single] at first
    obtain rfl := Option.some.inj first
    contradiction
  | some column =>
    obtain ⟨c, rest, content, space⟩ := exists_of_indentation indented
    have written := items_written content indented
    have comment : c ≠ '#' := by
      rintro rfl
      simp [content, indentation_spaces, indentation_cons space] at indented
    by_cases tab : c = '\t'
    · rw [written, if_pos tab] at first
      obtain rfl := Option.some.inj first
      contradiction
    · rw [if_neg tab] at written
      by_cases entry : c = '-' ∧ rest.head?.all (· == ' ') = true
      · obtain ⟨rfl, opens⟩ := entry
        rw [written, itemsFrom, if_pos opens] at first
        obtain rfl := Option.some.inj first
        contradiction
      · rw [written, itemsFrom_leaf _ _ space entry] at first
        obtain rfl := Option.some.inj first
        cases found : keyPart? (c :: rest) with
        | none =>
          rw [leaf, found] at at'
          contradiction
        | some part => exact ⟨column, c, rest, part, content, space, tab, comment, entry, found, by rw [leaf, found]⟩

/-- A key that comes first on a line has the line to itself, whatever follows its colon. -/
theorem keyed_of_first {l : Line} {item : Item} {colon : Nat} (first : l.items[0]? = some item)
    (at' : item.kind.colon? = some colon) :
    ∃ p t, l.content = p ++ ':' :: t ∧ colon = l.start + bytes p ∧
      ∀ (l' : Line) (rest : Text), l'.start = l.start → l'.content = p ++ ':' :: rest → separates rest = true →
        ∃ x, l'.items = [x] ∧ x.kind = item.kind := by
  obtain ⟨column, c, rest, part, content, space, tab, comment, entry, found, rfl⟩ := exists_leaf_of_first first at'
  obtain ⟨t, split, -, filled⟩ := keyPart?_eq_some found
  cases part with
  | nil => simp [isBlank] at filled
  | cons d part =>
    obtain ⟨rfl, rfl⟩ := List.cons_eq_cons.mp split
    have entry' : ¬(c = '-' ∧ (part ++ [':']).head?.all (· == ' ') = true) := by
      cases part with
      | nil => simp
      | cons => simpa using entry
    refine ⟨spaces column ++ c :: part, t, ?_, ?_, fun l' rest' start content' separate => ⟨_,
      (items_of_keyPart? space tab comment entry' found content' separate).2, ?_⟩⟩
    · rw [content, List.append_assoc]
      rfl
    · rw [bytes_append, bytes_spaces, ← Nat.add_assoc]
      exact (Option.some.inj at').symm
    · rw [start]
      rfl

end Line

namespace Outline

variable {items : List Item} {k : Nat} {path : KeyPath}

theorem enclosingOf_entry {entry item : Item} {c x : Nat} (found : items[k]? = some entry) (kind : entry.kind = .entry c)
    (stands : item.kind.column? = some x) (right : c < x) :
    enclosingOf (openedAfter [] 1 (items.take (k + 1))) item = k + 1 := by
  obtain ⟨bound, at'⟩ := List.getElem?_eq_some_iff.mp found
  have upTo : items.take (k + 1) = items.take k ++ [entry] := by rw [List.take_add_one, found]; rfl
  have size : (items.take k).length = k := List.length_take_of_le (Nat.le_of_lt bound)
  have column : entry.kind.column? = some c := by rw [kind]; rfl
  have container : entry.kind.isContainer = true := by rw [kind]; rfl
  rw [upTo, openedAfter_append, openedAfter, openedAfter, openedBy, column, enclosingOf, stands]
  simp [container, closeTo, Nat.not_le.mpr right, enclosing, size, Nat.add_comm]

theorem not_leads_entry {entry item : Item} {c x : Nat} (found : items[k]? = some entry) (kind : entry.kind = .entry c)
    (next : items[k + 1]? = some item) (stands : item.kind.column? = some x) (right : c < x) :
    ¬(ofItems items).Leads path (k + 2) := by
  intro leads
  generalize place : k + 2 = j at leads
  cases leads with
  | root => contradiction
  | child parent isChild =>
    subst place
    have node := isChild.found
    rw [getElem?_ofItems_succ, next] at node
    obtain rfl := Option.some.inj node
    obtain rfl : k + 1 = _ := (enclosingOf_entry found kind stands right).symm.trans (Option.some.inj isChild.parent)
    -- The entry itself would have to be a key.
    generalize above : k + 1 = i at parent
    cases parent with
    | root => contradiction
    | child _ entry' =>
      subst above
      have named := entry'.name
      have node := entry'.found
      rw [getElem?_ofItems_succ, found] at node
      obtain rfl := Option.some.inj node
      rw [kind] at named
      contradiction

theorem Leads.congr {o o' : Outline} {i : Nat} (h : o.Leads path i) (same : ∀ k, k ≤ i → o'.nodes[k]? = o.nodes[k]?) :
    o'.Leads path i := by
  induction h with
  | root => exact .root
  | child parent isChild ih =>
    have above := isChild.above
    refine .child (ih fun k early => same k (Nat.le_of_lt (Nat.lt_of_le_of_lt early above)))
      ⟨?_, above, isChild.parent, isChild.name⟩
    rw [same _ (Nat.le_refl _), isChild.found]

/-- The path of an item depends on what the item is and on what comes before it. -/
theorem Leads.swap {above below below' : List Item} {x y : Item} (h : (ofItems (above ++ x :: below)).Leads path (above.length + 1))
    (same : y.kind = x.kind) : (ofItems (above ++ y :: below')).Leads path (above.length + 1) := by
  have enclosing : enclosingOf (openedAfter [] 1 above) y = enclosingOf (openedAfter [] 1 above) x := by
    simp only [enclosingOf, same]
  generalize place : above.length + 1 = j at h
  cases h with
  | root => contradiction
  | @child way i _ name n parent isChild =>
    subst place
    have less := isChild.above
    obtain rfl := Option.some.inj ((getElem?_ofItems_append above below x).symm.trans isChild.found)
    refine .child (parent.congr fun k early => ?_) ⟨getElem?_ofItems_append above below' y, less, ?_, ?_⟩
    · rw [getElem?_graft_of_lt (Nat.lt_of_le_of_lt early less), getElem?_graft_of_lt (Nat.lt_of_le_of_lt early less)]
    · exact (congrArg some enclosing).trans isChild.parent
    · have named : x.kind.name? = some name := isChild.name
      exact same ▸ named

theorem Leads.hasKey_swap {above below below' : List Item} {x y : Item} {colon : Nat}
    (h : (ofItems (above ++ x :: below)).Leads path (above.length + 1)) (at' : x.kind.colon? = some colon)
    (same : y.kind = x.kind) : (ofItems (above ++ y :: below')).HasKey colon path := by
  have node := getElem?_ofItems_append above below' y
  exact ⟨_, _, node, (congrArg Kind.colon? same).trans at', (keyPath?_eq_some_iff node).mpr (h.swap same)⟩

end Outline

namespace Document

variable {d d' : Document} {path : KeyPath} {a old new : Text}

theorem exists_keyLine {i colon : Nat} {n : Node} (found : d.outline.nodes[i]? = some n)
    (at' : n.kind.colon? = some colon) (leads : d.outline.Leads path i) :
    ∃ upper l lower, d.lines = upper ++ l :: lower ∧ i = (upper.flatMap Line.items).length + 1 ∧
      l.items[0]? = some n.toItem := by
  obtain ⟨column, name, kind⟩ := Kind.exists_key_of_colon? at'
  have positive : 0 < i := by
    cases i with
    | zero =>
      obtain rfl := Option.some.inj ((Outline.getElem?_ofItems_zero d.items).symm.trans found)
      contradiction
    | succ => exact Nat.succ_pos _
  obtain ⟨k, item, rfl, place, rfl⟩ := Outline.exists_item_of_pos positive found
  obtain ⟨upper, l, lower, j, split, onLine, rfl⟩ := Line.exists_of_item place
  cases j with
  | zero => exact ⟨upper, l, lower, split, rfl, onLine⟩
  | succ j =>
    obtain ⟨entry, c, before, entryKind⟩ := Line.exists_entry_before onLine
    have right := Line.standRight_drop before (show entry.kind.column? = some c by rw [entryKind]; rfl)
    have stands : item.kind.column? = some column := by rw [show item.kind = _ from kind]; rfl
    have further : item ∈ l.items.drop (j + 1) := List.mem_of_getElem? (i := 0) (by simpa using onLine)
    have items : d.items = upper.flatMap Line.items ++ (l.items ++ lower.flatMap Line.items) := by
      rw [Document.items, split, List.flatMap_append, List.flatMap_cons]
    have inDocument {t : Nat} {x : Item} (found : l.items[t]? = some x) :
        d.items[(upper.flatMap Line.items).length + t]? = some x := by
      obtain ⟨bound, -⟩ := List.getElem?_eq_some_iff.mp found
      rw [items, List.getElem?_append_right (Nat.le_add_right _ _), Nat.add_sub_cancel_left,
        List.getElem?_append_left bound, found]
    exact absurd leads
      (Outline.not_leads_entry (inDocument before) entryKind (inDocument onLine) stands (right item further column stands))

theorem setsApart_of_mem_items {item : Item} (member : item ∈ d.items) (at' : item.kind.colon? = some (bytes a))
    (text : d.text = a ++ ':' :: new) : new.SetsApart := by
  obtain ⟨upper, l, lower, above, tail, split, cut, onLine⟩ := exists_line_of_mem_items member
  obtain ⟨b, t, content, place, separate⟩ := Line.exists_colon onLine at'
  have begins := cut.begins
  have whole : a ++ ':' :: new = above ++ b ++ ':' :: (t ++ tail.text) := by
    rw [← text, cut.text, content]
    simp
  obtain ⟨-, behind⟩ := append_inj_of_bytes whole (by rw [place, begins, bytes_append, Nat.zero_add])
  obtain rfl : new = t ++ tail.text := (List.cons_eq_cons.mp behind).2
  exact Line.setsApart_of_separates separate tail

theorem hasKey_of_setsApart (has : d.outline.HasKey (bytes a) path) (text : d.text = a ++ ':' :: old)
    (text' : d'.text = a ++ ':' :: new) (apart : new.SetsApart) : d'.outline.HasKey (bytes a) path := by
  obtain ⟨i, n, found, at', reached⟩ := has
  have leads := (Outline.keyPath?_eq_some_iff found).mp reached
  obtain ⟨upper, l, lower, split, rfl, first⟩ := exists_keyLine found at' leads
  obtain ⟨p, t, content, place, keyed⟩ := Line.keyed_of_first first at'
  obtain ⟨above, tail, cut⟩ := exists_cut split
  have begins := cut.begins
  have oneLine := cut.oneLine
  have whole : a ++ ':' :: old = above ++ p ++ ':' :: (t ++ tail.text) := by
    rw [← text, cut.text, content]
    simp
  obtain ⟨rfl, -⟩ := append_inj_of_bytes whole (by rw [place, begins, bytes_append, Nat.zero_add])
  have noBreak : '\n' ∉ p ++ [':'] := by
    rw [content] at oneLine
    simp only [List.mem_append, not_or] at oneLine
    simp [oneLine.1]
  -- The lines above are the same, and the line of the key begins as it did.
  obtain ⟨t', ending, lower', reads, iff⟩ := Line.read_behind l.start noBreak (by simp) new
  have lines : d'.lines = upper ++ ⟨l.start, p ++ [':'] ++ t', ending⟩ :: lower' := by
    have text' : d'.text = above ++ (p ++ [':'] ++ new) := by simp [text']
    rw [lines_eq, text', cut.whole.reads, ← begins, reads]
  obtain ⟨x, single, same⟩ := keyed ⟨l.start, p ++ [':'] ++ t', ending⟩ t' rfl (by simp) (iff.mpr apart)
  obtain ⟨more, items⟩ := List.head?_eq_some_iff.mp (List.head?_eq_getElem?.trans first)
  have old : d.items = upper.flatMap Line.items ++ n.toItem :: (more ++ lower.flatMap Line.items) := by
    rw [Document.items, split, List.flatMap_append, List.flatMap_cons, items, List.cons_append]
  have new : d'.items = upper.flatMap Line.items ++ x :: lower'.flatMap Line.items := by
    rw [Document.items, lines, List.flatMap_append, List.flatMap_cons, single, List.singleton_append]
  rw [old] at leads
  rw [outline_eq, new]
  exact leads.hasKey_swap at' same

/-- A key with its path stays exactly as long as its colon is set apart by what follows it. -/
theorem hasKey_iff (has : d.outline.HasKey (bytes a) path) (text : d.text = a ++ ':' :: old)
    (text' : d'.text = a ++ ':' :: new) : d'.outline.HasKey (bytes a) path ↔ new.SetsApart := by
  constructor
  · rintro ⟨i, n, found, at', -⟩
    obtain ⟨column, name, kind⟩ := Kind.exists_key_of_colon? at'
    exact setsApart_of_mem_items (mem_items_of_node found (by rw [kind]; nofun)) at' text'
  · exact hasKey_of_setsApart has text text'

end Document
end Offside
