import Mathlib.Data.List.Basic
import Offside.Proofs.Lines
import Offside.Text.KeyPath

/-! Paths read off dotted names. Empty parts of a name are left out, so the paths that come out are those with full keys and no
dot in them, and a name is written back as it was if nothing was left out. A dot between two names puts their paths together. -/
namespace Offside.KeyPath

variable {p q r : KeyPath}

theorem proper_ofDotted (name : Text) : ∀ key ∈ ofDotted name, key ≠ [] ∧ '.' ∉ key := by
  intro key member
  obtain ⟨part, full⟩ := List.mem_filter.mp member
  exact ⟨by simpa using full, Text.notMem_of_mem_splitOn part⟩

theorem splitOn_dotted (undotted : ∀ key ∈ p, '.' ∉ key) (keyed : p ≠ []) : p.dotted.splitOn '.' = p :=
  List.splitOn_intercalate '.' undotted keyed

theorem ofDotted_eq_splitOn {name : Text} (full : ∀ part ∈ name.splitOn '.', part ≠ []) : ofDotted name = name.splitOn '.' :=
  List.filter_eq_self.mpr fun part member => by simpa using full part member

theorem ofDotted_dotted (proper : ∀ key ∈ p, key ≠ [] ∧ '.' ∉ key) : ofDotted p.dotted = p := by
  cases p with
  | nil => rfl
  | cons key keys =>
    have parts := splitOn_dotted (fun key member => (proper key member).2) (List.cons_ne_nil key keys)
    have full : ∀ part ∈ (dotted (key :: keys)).splitOn '.', part ≠ [] := by
      rw [parts]
      exact fun part member => (proper part member).1
    rw [ofDotted_eq_splitOn full, parts]

theorem ofDotted_dotted_eq_self_iff : ofDotted p.dotted = p ↔ ∀ key ∈ p, key ≠ [] ∧ '.' ∉ key := by
  constructor
  · intro same
    rw [← same]
    exact proper_ofDotted p.dotted
  · exact ofDotted_dotted

theorem dotted_ofDotted_eq_self_iff {name : Text} :
    (ofDotted name).dotted = name ↔ name = [] ∨ ∀ part ∈ name.splitOn '.', part ≠ [] := by
  constructor
  · intro same
    rcases eq_or_ne (ofDotted name) [] with none | keyed
    · left
      rw [← same, none]
      rfl
    · right
      -- The parts of the name are the keys that were read off it.
      have parts := splitOn_dotted (fun key member => (proper_ofDotted name key member).2) keyed
      rw [same] at parts
      rw [parts]
      exact fun part member => (proper_ofDotted name part member).1
  · rintro (rfl | full)
    · rfl
    · rw [ofDotted_eq_splitOn full, dotted, List.intercalate_splitOn]

/-- A dot between two names puts their paths together, also where it stands beside other dots. -/
theorem ofDotted_append (a b : Text) : ofDotted (a ++ '.' :: b) = ofDotted a ++ ofDotted b := by
  rw [ofDotted, List.splitOn_append_cons_self, List.filter_append]
  rfl

theorem dropStart?_eq_some_iff : p.dropStart? q = some r ↔ p = q ++ r := by
  rw [dropStart?, List.isPrefixOf?_eq_some_iff_append_eq, eq_comm]

/-- Paths of full keys without dots are those that are read back from their dotted names, and what is read off any name is such a
path. A name is written back as it was exactly if it is empty or has no empty part. Names with a dot between them have the keys of
both, and what is left of a path behind another is what has to be appended to the other to get the path. -/
theorem ofDotted_reads (p q r : KeyPath) (name a b : Text) :
    (ofDotted p.dotted = p ↔ ∀ key ∈ p, key ≠ [] ∧ '.' ∉ key) ∧
    ofDotted (ofDotted name).dotted = ofDotted name ∧
    ((ofDotted name).dotted = name ↔ name = [] ∨ ∀ part ∈ name.splitOn '.', part ≠ []) ∧
    ofDotted (a ++ '.' :: b) = ofDotted a ++ ofDotted b ∧
    (p.dropStart? q = some r ↔ p = q ++ r) :=
  ⟨ofDotted_dotted_eq_self_iff, ofDotted_dotted (proper_ofDotted name), dotted_ofDotted_eq_self_iff, ofDotted_append a b,
    dropStart?_eq_some_iff⟩

/-- Empty parts are lost, wherever they stand. -/
example : ofDotted ".a..b.".toList = ["a".toList, "b".toList] ∧ (ofDotted "..".toList).dotted = [] := by decide

end Offside.KeyPath
