import Offside.Text.Basic

/-!
Finite maps from texts. Keys are kept in strictly increasing order of their code points, which is also the order
of their UTF-8 bytes.
-/
namespace Offside

structure Dictionary (α : Type) where
  entries : List (Text × α)
  increasing : (entries.map Prod.fst).Pairwise (· < ·)
  deriving Repr

namespace Dictionary

variable {α : Type}

def empty : Dictionary α := ⟨[], .nil⟩

def insertEntry (key : Text) (value : α) : List (Text × α) → List (Text × α)
  | [] => [(key, value)]
  | (k, v) :: rest =>
    if key < k then (key, value) :: (k, v) :: rest
    else if key = k then (key, value) :: rest
    else (k, v) :: insertEntry key value rest

theorem mem_insertEntry {key : Text} {value : α} {entries : List (Text × α)} {entry : Text × α}
    (h : entry ∈ insertEntry key value entries) : entry = (key, value) ∨ entry ∈ entries := by
  induction entries with
  | nil => exact .inl (List.mem_singleton.mp h)
  | cons first rest ih =>
    obtain ⟨k, v⟩ := first
    simp only [insertEntry] at h
    split at h
    · exact List.mem_cons.mp h
    · split at h
      · rcases List.mem_cons.mp h with new | old
        · exact .inl new
        · exact .inr (List.mem_cons_of_mem _ old)
      · rcases List.mem_cons.mp h with rfl | later
        · exact .inr List.mem_cons_self
        · rcases ih later with new | old
          · exact .inl new
          · exact .inr (List.mem_cons_of_mem _ old)

theorem mem_keys_insertEntry {key k : Text} {value : α} {entries : List (Text × α)} :
    k ∈ (insertEntry key value entries).map Prod.fst ↔ k = key ∨ k ∈ entries.map Prod.fst := by
  induction entries with
  | nil => simp [insertEntry]
  | cons entry rest ih =>
    obtain ⟨k', v⟩ := entry
    simp only [insertEntry]
    split
    · simp
    · split
      next _ same => subst same; simp
      next => simp only [List.map_cons, List.mem_cons, ih]; exact or_left_comm

theorem increasing_insertEntry {key : Text} {value : α} {entries : List (Text × α)}
    (h : (entries.map Prod.fst).Pairwise (· < ·)) :
    ((insertEntry key value entries).map Prod.fst).Pairwise (· < ·) := by
  induction entries with
  | nil => simp [insertEntry]
  | cons entry rest ih =>
    obtain ⟨k, v⟩ := entry
    obtain ⟨first, later⟩ := List.pairwise_cons.mp h
    simp only [insertEntry]
    split
    next below =>
      refine List.pairwise_cons.mpr ⟨fun k' member => ?_, h⟩
      rcases List.mem_cons.mp member with rfl | member
      · exact below
      · exact List.lt_trans below (first k' member)
    next notBelow =>
      split
      next same => subst same; exact h
      next other =>
        refine List.pairwise_cons.mpr ⟨fun k' member => ?_, ih later⟩
        rcases mem_keys_insertEntry.mp member with rfl | member
        · exact (List.le_iff_lt_or_eq.mp (List.not_lt.mp notBelow)).resolve_right (Ne.symm other)
        · exact first k' member

/-- An entry with the same key is replaced. -/
def insert (d : Dictionary α) (key : Text) (value : α) : Dictionary α :=
  ⟨insertEntry key value d.entries, increasing_insertEntry d.increasing⟩

/-- The last value of a key wins. -/
def ofList (pairs : List (Text × α)) : Dictionary α :=
  pairs.foldl (fun d (key, value) => d.insert key value) empty

theorem mem_ofList {pairs : List (Text × α)} {entry : Text × α} (h : entry ∈ (ofList pairs).entries) : entry ∈ pairs := by
  have all (d : Dictionary α) (pairs : List (Text × α))
      (h : entry ∈ (pairs.foldl (fun d (key, value) => d.insert key value) d).entries) : entry ∈ d.entries ∨ entry ∈ pairs := by
    induction pairs generalizing d with
    | nil => exact .inl h
    | cons pair pairs ih =>
      rcases ih _ h with earlier | later
      · rcases mem_insertEntry earlier with rfl | old
        · exact .inr List.mem_cons_self
        · exact .inl old
      · exact .inr (List.mem_cons_of_mem _ later)
  rcases all empty pairs h with none | given
  · contradiction
  · exact given

def get? (d : Dictionary α) (key : Text) : Option α := d.entries.lookup key

def contains (d : Dictionary α) (key : Text) : Bool := (d.get? key).isSome

/-- Changes the value of a key, if it has one. -/
def modify (d : Dictionary α) (key : Text) (f : α → α) : Dictionary α where
  entries := d.entries.map fun (k, v) => (k, if k = key then f v else v)
  increasing := by
    rw [List.map_map]
    exact d.increasing

def size (d : Dictionary α) : Nat := d.entries.length

def isEmpty (d : Dictionary α) : Bool := d.entries.isEmpty

def values (d : Dictionary α) : List α := d.entries.map Prod.snd

/-- The first key that is not below `start`. -/
def firstKey? (d : Dictionary α) (start : Text) : Option Text := (d.entries.map Prod.fst).find? fun k => !(k < start)

/-- Keys that begin with `start` stand together, so the first that is not below it decides. -/
def hasKeyFrom (d : Dictionary α) (start : Text) : Bool := (d.firstKey? start).any start.isPrefixOf

/-- The longest beginning of `name`, of at most `n` characters, that some key begins with. -/
def longestStartWithin (d : Dictionary α) (name : Text) : Nat → Text
  | 0 => []
  | n + 1 => if d.hasKeyFrom (name.take (n + 1)) then name.take (n + 1) else d.longestStartWithin name n

def longestStart (d : Dictionary α) (name : Text) : Text := d.longestStartWithin name name.length

end Dictionary
end Offside
