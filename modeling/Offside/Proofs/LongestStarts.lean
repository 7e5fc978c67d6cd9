import Offside.Proofs.Dictionaries

/-! The longest start of a name that some key begins with. In a sorted dictionary the keys that begin alike stand together, with
what they begin with right before them. -/
namespace Offside

open Text

theorem Text.prefix_of_between {start key k : Text} (begins : start <+: key) (above : ¬k < start) (below : ¬key < k) :
    start <+: k := by
  induction start generalizing key k with
  | nil => exact List.nil_prefix
  | cons c start ih =>
    obtain ⟨rest, rfl⟩ := begins
    cases k with
    | nil => exact absurd (List.nil_lt_cons c start) above
    | cons b k =>
      simp only [List.cons_append, List.cons_lt_cons_iff, not_or, not_and] at above below
      obtain rfl : b = c := Char.le_antisymm (Char.not_lt.mp below.1) (Char.not_lt.mp above.1)
      exact List.cons_prefix_cons.mpr ⟨rfl, ih (List.prefix_append start rest) (above.2 rfl) (below.2 rfl)⟩

namespace Dictionary

variable {α : Type} {d : Dictionary α} {name start key : Text}

theorem firstKey?_spec {k : Text} (first : d.firstKey? start = some k) :
    d.contains k = true ∧ ¬k < start ∧ ∀ key, d.contains key = true → ¬key < start → ¬key < k := by
  obtain ⟨above, earlier, later, keys, skipped⟩ := List.find?_eq_some_iff_append.mp first
  refine ⟨contains_iff.mpr (List.mem_of_find?_eq_some first), by simpa using above, fun key known notBelow => ?_⟩
  have member := contains_iff.mp known
  have sorted := d.increasing
  rw [keys] at member sorted
  rcases List.mem_append.mp member with early | late
  · exact absurd (by simpa using skipped key early) notBelow
  · rcases List.mem_cons.mp late with rfl | late
    · exact List.lt_irrefl key
    · exact List.lt_asymm ((List.pairwise_cons.mp (List.pairwise_append.mp sorted).2.1).1 key late)

theorem exists_firstKey (known : d.contains key = true) (notBelow : ¬key < start) : ∃ k, d.firstKey? start = some k := by
  refine Option.isSome_iff_exists.mp (List.find?_isSome.mpr ⟨key, contains_iff.mp known, ?_⟩)
  simpa using notBelow

/-- The first key that is not below a text begins with it if any key does. -/
theorem hasKeyFrom_iff : d.hasKeyFrom start = true ↔ ∃ key, d.contains key = true ∧ start <+: key := by
  constructor
  · intro found
    obtain ⟨k, first, begins⟩ := (Option.any_eq_true _ _).mp found
    exact ⟨k, (firstKey?_spec first).1, List.isPrefixOf_iff_prefix.mp begins⟩
  · rintro ⟨key, known, begins⟩
    have notBelow : ¬key < start := List.not_lt.mpr begins.le
    obtain ⟨k, first⟩ := exists_firstKey known notBelow
    obtain ⟨-, above, least⟩ := firstKey?_spec first
    rw [hasKeyFrom, first, Option.any_some, List.isPrefixOf_iff_prefix]
    exact prefix_of_between begins above (least key known notBelow)

theorem longestStartWithin_spec (d : Dictionary α) (name : Text) (n : Nat) :
    d.longestStartWithin name n <+: name ∧
    (d.longestStartWithin name n = [] ∨ d.hasKeyFrom (d.longestStartWithin name n) = true) ∧
    ∀ start, start <+: name → start.length ≤ n → d.hasKeyFrom start = true → start <+: d.longestStartWithin name n := by
  induction n with
  | zero =>
    refine ⟨List.nil_prefix, .inl rfl, fun start _ short _ => ?_⟩
    rw [List.length_eq_zero_iff.mp (Nat.le_zero.mp short)]
    exact List.nil_prefix
  | succ n ih =>
    rw [longestStartWithin]
    split
    next found =>
      refine ⟨List.take_prefix _ _, .inr found, fun start begins short _ => ?_⟩
      exact List.prefix_take_iff.mpr ⟨begins, short⟩
    next missing =>
      refine ⟨ih.1, ih.2.1, fun start begins short known => ih.2.2 start begins ?_ known⟩
      refine Nat.le_of_lt_succ (Nat.lt_of_le_of_ne short fun full => missing ?_)
      rwa [← Nat.succ_eq_add_one, ← full, ← List.prefix_iff_eq_take.mp begins]

/-- The answer is a start of the name, up to the end of a character, that some key begins with unless it is empty. Every start of
the name that some key begins with is a start of the answer, so that none is longer. -/
theorem longestStart_greatest (d : Dictionary α) (name : Text) :
    d.longestStart name <+: name ∧ Boundary name (bytes (d.longestStart name)) ∧
    (d.longestStart name = [] ∨ ∃ key, d.contains key = true ∧ d.longestStart name <+: key) ∧
    ∀ start, start <+: name → (∃ key, d.contains key = true ∧ start <+: key) → start <+: d.longestStart name := by
  obtain ⟨begins, known, greatest⟩ := d.longestStartWithin_spec name name.length
  simp only [hasKeyFrom_iff] at known greatest
  obtain ⟨rest, whole⟩ := begins
  exact ⟨⟨rest, whole⟩, boundary_iff.mpr ⟨_, rest, whole.symm, rfl⟩, known,
    fun start begins => greatest start begins begins.length_le⟩

/-- The first letter takes two bytes. -/
theorem longestStart_greatest_accented :
    let d : Dictionary Unit := ofList [("über.x".toList, ())]
    d.longestStart "übel".toList = "übe".toList ∧ "üb".toList <+: d.longestStart "übel".toList := by
  intro d
  obtain ⟨-, -, -, greatest⟩ := d.longestStart_greatest "übel".toList
  exact ⟨by decide, greatest "üb".toList (by decide) ⟨"über.x".toList, by decide, by decide⟩⟩

end Dictionary
end Offside
