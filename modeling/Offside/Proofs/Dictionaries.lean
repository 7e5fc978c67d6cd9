import Mathlib.Data.List.Induction
import Mathlib.Data.List.Sort
import Offside.Text.Dictionary

/-! Lookups in dictionaries. A dictionary is known by its lookups, and each operation is described by what it does to them. -/
namespace Offside.Dictionary

variable {α : Type} {d e : Dictionary α} {key k : Text} {value : α}

theorem pairwise_entries (d : Dictionary α) : d.entries.Pairwise fun a b => a.1 < b.1 := List.pairwise_map.mp d.increasing

theorem contains_iff : d.contains key = true ↔ key ∈ d.entries.map Prod.fst := by
  rw [contains, get?, List.lookup_isSome_iff]
  constructor
  · rintro ⟨entry, member, same⟩
    exact List.mem_map.mpr ⟨entry, member, (eq_of_beq same).symm⟩
  · intro member
    obtain ⟨entry, inside, rfl⟩ := List.mem_map.mp member
    exact ⟨entry, inside, beq_self_eq_true entry.1⟩

theorem lookup_cons (key : Text) (value : α) (rest : List (Text × α)) (k : Text) :
    ((key, value) :: rest).lookup k = if k = key then some value else rest.lookup k := by
  rw [List.lookup_cons]
  by_cases same : k = key
  · simp [same]
  · simp [same, beq_eq_false_iff_ne.mpr same]

theorem get?_eq_some_iff : d.get? k = some value ↔ (k, value) ∈ d.entries := by
  rw [get?, List.lookup_eq_some_iff]
  constructor
  · rintro ⟨before, behind, split, -⟩
    simp [split]
  · intro member
    obtain ⟨before, behind, split⟩ := List.append_of_mem member
    have sorted := d.pairwise_entries
    rw [split, List.pairwise_append] at sorted
    refine ⟨before, behind, split, fun entry early => bne_iff_ne.mpr ?_⟩
    have less := sorted.2.2 entry early (k, value) List.mem_cons_self
    rintro rfl
    exact List.lt_irrefl _ less

theorem ext_get? (same : ∀ k, d.get? k = e.get? k) : d = e := by
  have members : ∀ entry, entry ∈ d.entries ↔ entry ∈ e.entries := by
    rintro ⟨k, value⟩
    rw [← get?_eq_some_iff, same, get?_eq_some_iff]
  have antisymm : Std.Antisymm fun a b : Text × α => a.1 < b.1 := ⟨fun a b ab ba => absurd ba (List.lt_asymm ab)⟩
  have irrefl : Std.Irrefl fun a b : Text × α => a.1 < b.1 := ⟨fun a => List.lt_irrefl a.1⟩
  have entries := d.pairwise_entries.eq_of_mem_iff e.pairwise_entries members
  cases d
  cases e
  congr

theorem lookup_insertEntry (key : Text) (value : α) (entries : List (Text × α)) (k : Text) :
    (insertEntry key value entries).lookup k = if k = key then some value else entries.lookup k := by
  induction entries with
  | nil => exact lookup_cons key value [] k
  | cons entry rest ih =>
    obtain ⟨k', v⟩ := entry
    simp only [insertEntry]
    split
    next => exact lookup_cons key value _ k
    next =>
      split
      next same => simp only [lookup_cons, same]; split <;> rfl
      next other =>
        rw [lookup_cons, lookup_cons, ih]
        by_cases first : k = k'
        · subst first; simp [Ne.symm other]
        · simp [first]

@[simp] theorem get?_insert : (d.insert key value).get? k = if k = key then some value else d.get? k :=
  lookup_insertEntry key value d.entries k

theorem ofList_concat (pairs : List (Text × α)) (pair : Text × α) :
    ofList (pairs ++ [pair]) = (ofList pairs).insert pair.1 pair.2 := by
  rw [ofList, List.foldl_append]
  rfl

theorem findRev?_append (p : α → Bool) (front back : List α) :
    (front ++ back).findRev? p = (back.findRev? p).or (front.findRev? p) := by
  simp only [List.findRev?_eq_find?_reverse, List.reverse_append, List.find?_append]

theorem findRev?_singleton (p : α → Bool) (a : α) : [a].findRev? p = if p a then some a else none := by
  rw [List.findRev?_eq_find?_reverse, List.reverse_singleton, List.find?_singleton]

theorem get?_ofList (pairs : List (Text × α)) (k : Text) : (ofList pairs).get? k = (pairs.findRev? (·.1 = k)).map Prod.snd := by
  induction pairs using List.reverseRecOn with
  | nil => rfl
  | append_singleton pairs pair ih =>
    rw [ofList_concat, get?_insert, ih, findRev?_append, findRev?_singleton]
    by_cases same : pair.1 = k
    · simp [same]
    · simp [same, Ne.symm same]

@[simp] theorem get?_modify {f : α → α} : (d.modify key f).get? k = if k = key then (d.get? k).map f else d.get? k := by
  have all (entries : List (Text × α)) :
      (entries.map fun entry => (entry.1, if entry.1 = key then f entry.2 else entry.2)).lookup k =
        if k = key then (entries.lookup k).map f else entries.lookup k := by
    induction entries with
    | nil => simp
    | cons entry rest ih =>
      rw [List.map_cons, lookup_cons, lookup_cons, ih]
      by_cases first : k = entry.1
      · subst first
        rw [if_pos rfl, if_pos rfl]
        split <;> rfl
      · rw [if_neg first, if_neg first]
  exact all d.entries

theorem ofList_entries (d : Dictionary α) : ofList d.entries = d := by
  refine ext_get? fun k => ?_
  rw [get?_ofList, List.findRev?_eq_find?_reverse]
  cases found : d.entries.reverse.find? (·.1 = k) with
  | none =>
    rw [List.find?_eq_none] at found
    refine (Option.eq_none_iff_forall_ne_some.mpr fun value known => ?_).symm
    exact found (k, value) (List.mem_reverse.mpr (get?_eq_some_iff.mp known)) (decide_eq_true rfl)
  | some entry =>
    have member := List.mem_reverse.mp (List.mem_of_find?_eq_some found)
    have same : entry.1 = k := by simpa using List.find?_some found
    exact (get?_eq_some_iff.mpr (same ▸ member)).symm

/-- The entries under some keys are the values of those keys, in whatever order they come. -/
theorem perm_filter_entries (d : Dictionary α) {keys : List Text} (distinct : keys.Nodup) :
    (d.entries.filter fun entry => keys.contains entry.1).Perm (keys.filterMap fun k => (d.get? k).map (k, ·)) := by
  have entries : d.entries.Nodup :=
    d.pairwise_entries.imp fun {a b} less (same : a = b) => List.lt_irrefl _ (same ▸ less)
  have found : (keys.filterMap fun k => (d.get? k).map (k, ·)).Nodup := by
    refine distinct.filterMap fun k k' entry found found' => ?_
    obtain ⟨v, -, rfl⟩ := Option.map_eq_some_iff.mp found
    obtain ⟨v', -, same⟩ := Option.map_eq_some_iff.mp found'
    exact (Prod.mk.inj same).1.symm
  refine (List.perm_ext_iff_of_nodup (entries.filter _) found).mpr fun entry => ?_
  obtain ⟨k, value⟩ := entry
  simp [← get?_eq_some_iff, and_comm]

end Offside.Dictionary
