import Offside.Proofs.Rounding
import Offside.Proofs.Weights

/-! Scores as exact quotients, and as the doubles that are compared. A match is told from no match by its score, a perfect match by
the score one, and the score grows with the pattern and falls with the length of the identifier. Identifiers of fewer than `2 ^ 30`
characters are short enough for the doubles to show all of it. -/
namespace Offside

open Text

/-- The share of the greatest possible weight. -/
def Closeness.ratio (c : Closeness) : ℚ := c.weight / c.full

/-- The quotient that `matchScore` rounds to a double. -/
def exactScore (pattern id : Text) : ℚ := ((closeness? pattern id).map Closeness.ratio).getD 0

variable {pattern more id id' : Text} {w : Nat}

theorem score_cases (pattern id : Text) :
    (pattern = [] ∧ exactScore pattern id = 1 ∧ matchScore pattern id = .ofRatio 1 1) ∨
    (¬pattern.IsSubsequence id ∧ exactScore pattern id = 0 ∧ matchScore pattern id = .ofRatio 0 1) ∨
    pattern ≠ [] ∧ ∃ w, Walk .leading ' ' pattern id w := by
  by_cases empty : pattern = []
  · subst empty
    exact .inl ⟨rfl, by simp [exactScore, closeness?, Closeness.ratio], rfl⟩
  · by_cases matched : pattern.IsSubsequence id
    · exact .inr (.inr ⟨empty, Walk.exists_of_isSubsequence .leading ' ' matched⟩)
    · have none := matched
      rw [← isSome_closeness?, Option.not_isSome_iff_eq_none] at none
      exact .inr (.inl ⟨matched, by rw [exactScore, none]; rfl, by rw [matchScore, none]; rfl⟩)

namespace Walk

theorem weight_le (walk : Walk .leading ' ' pattern id w) : w ≤ 4 * id.length :=
  walk.le.trans (Nat.mul_le_mul_left 4 walk.isSubsequence.length_le)

variable (walk : Walk .leading ' ' pattern id w) (nonempty : pattern ≠ [])
include walk nonempty

theorem closeness?_eq : closeness? pattern id = some ⟨w, 4 * id.length⟩ := by
  rw [closeness?, if_neg (by simpa using nonempty), weigh?_eq_some_iff.mpr walk, Option.map_some]

theorem exactScore_eq : exactScore pattern id = w / (4 * id.length : ℕ) := by
  rw [exactScore, walk.closeness?_eq nonempty, Option.map_some, Option.getD_some, Closeness.ratio]

theorem matchScore_eq : matchScore pattern id = .ofRatio w (4 * id.length) := by
  rw [matchScore, walk.closeness?_eq nonempty, Option.map_some, Option.getD_some, Closeness.score]

theorem full_pos : 0 < 4 * id.length := (walk.pos nonempty).trans_le walk.weight_le

end Walk

/-- The score is a quotient of numbers up to a 32-bit bound, and the double is the one nearest to it. -/
theorem exists_closeness (pattern id : Text) : ∃ c : Closeness, exactScore pattern id = c.ratio ∧ matchScore pattern id = c.score ∧
    0 < c.full ∧ c.weight ≤ c.full ∧ (id.length < 2 ^ 30 → c.full < 2 ^ 32) := by
  rcases score_cases pattern id with ⟨-, exact, double⟩ | ⟨-, exact, double⟩ | ⟨nonempty, w, walk⟩
  · exact ⟨⟨1, 1⟩, by simp [exact, Closeness.ratio], double, Nat.one_pos, Nat.le_refl 1, fun _ => by decide⟩
  · exact ⟨⟨0, 1⟩, by simp [exact, Closeness.ratio], double, Nat.one_pos, Nat.zero_le 1, fun _ => by decide⟩
  · exact ⟨⟨w, 4 * id.length⟩, walk.exactScore_eq nonempty, walk.matchScore_eq nonempty, walk.full_pos nonempty, walk.weight_le,
      fun short => by dsimp only; omega⟩

theorem rank_matchScore_le {pattern' : Text} (le : exactScore pattern id ≤ exactScore pattern' id') :
    (matchScore pattern id).rank ≤ (matchScore pattern' id').rank := by
  obtain ⟨c, exact, double, pos, -⟩ := exists_closeness pattern id
  obtain ⟨c', exact', double', pos', -⟩ := exists_closeness pattern' id'
  rw [exact, exact', Closeness.ratio, Closeness.ratio, div_le_div_iff₀ (by exact_mod_cast pos) (by exact_mod_cast pos')] at le
  rw [double, double']
  exact Binary64.rank_ofRatio_le pos pos' (by exact_mod_cast le)

theorem exactScore_pos_iff : 0 < exactScore pattern id ↔ pattern.IsSubsequence id := by
  rcases score_cases pattern id with ⟨rfl, exact, -⟩ | ⟨unmatched, exact, -⟩ | ⟨nonempty, w, walk⟩
  · simp [exact, Text.IsSubsequence]
  · simp [exact, unmatched]
  · rw [walk.exactScore_eq nonempty]
    exact iff_of_true (div_pos (Nat.cast_pos.mpr (walk.pos nonempty)) (Nat.cast_pos.mpr (walk.full_pos nonempty)))
      walk.isSubsequence

theorem exactScore_le_one (pattern id : Text) : exactScore pattern id ≤ 1 := by
  obtain ⟨c, exact, -, pos, le, -⟩ := exists_closeness pattern id
  rw [exact, Closeness.ratio, div_le_one (Nat.cast_pos.mpr pos)]
  exact Nat.cast_le.mpr le

theorem exactScore_eq_one_iff :
    exactScore pattern id = 1 ↔ pattern = [] ∨ pattern.map Char.toLower = id.map Char.toLower := by
  rcases score_cases pattern id with ⟨rfl, exact, -⟩ | ⟨unmatched, exact, -⟩ | ⟨nonempty, w, walk⟩
  · simp [exact]
  · have nonempty : pattern ≠ [] := by
      rintro rfl
      exact unmatched (List.nil_sublist _)
    rw [exact]
    refine iff_of_false zero_ne_one (not_or.mpr ⟨nonempty, fun same => unmatched ?_⟩)
    rw [Text.IsSubsequence, same]
  · rw [walk.exactScore_eq nonempty, div_eq_one_iff_eq (Nat.cast_ne_zero.mpr (walk.full_pos nonempty).ne'), Nat.cast_inj]
    constructor
    · intro perfect
      have lengths := walk.isSubsequence.length_le
      have most := walk.le
      obtain rfl : w = 4 * pattern.length := by omega
      exact .inr ((Walk.leading_iff.mp walk).eq_of_length (by simp only [List.length_map]; omega))
    · intro same
      have same := same.resolve_left nonempty
      have length : pattern.length = id.length := by simpa using congrArg List.length same
      have perfect : Walk .leading ' ' pattern id (4 * pattern.length) := Walk.leading_iff.mpr (same ▸ List.prefix_rfl)
      rw [walk.unique perfect, length]

theorem rank_matchScore_pos_iff (short : id.length < 2 ^ 30) :
    (Binary64.ofNat 0).rank < (matchScore pattern id).rank ↔ 0 < exactScore pattern id := by
  obtain ⟨c, exact, double, pos, le, fits⟩ := exists_closeness pattern id
  have zero : (Binary64.ofNat 0).rank = (Binary64.ofRatio 0 c.full).rank := by
    rw [Binary64.ofNat, Binary64.rank_ofRatio_zero, Binary64.rank_ofRatio_zero]
  rw [exact, double, zero, Closeness.ratio, Closeness.score]
  rcases c.weight.eq_zero_or_pos with none | some
  · simp [none]
  · exact iff_of_true (Binary64.rank_ofRatio_lt_of_num some le (fits short).le)
      (div_pos (Nat.cast_pos.mpr some) (Nat.cast_pos.mpr pos))

theorem matchScore_eq_one_iff (short : id.length < 2 ^ 30) :
    matchScore pattern id = .ofNat 1 ↔ exactScore pattern id = 1 := by
  obtain ⟨c, exact, double, pos, le, fits⟩ := exists_closeness pattern id
  have one : (Binary64.ofRatio c.full c.full).rank = (Binary64.ofNat 1).rank :=
    Int.le_antisymm (Binary64.rank_ofRatio_le pos Nat.one_pos (by omega)) (Binary64.rank_ofRatio_le Nat.one_pos pos (by omega))
  rw [exact, double, Closeness.ratio, Closeness.score, div_eq_one_iff_eq (Nat.cast_ne_zero.mpr pos.ne'), Nat.cast_inj]
  constructor
  · intro perfect
    by_contra imperfect
    have less := Binary64.rank_ofRatio_lt_of_num (le.lt_of_ne imperfect) (Nat.le_refl _) (fits short).le
    rw [one, perfect] at less
    exact lt_irrefl _ less
  · intro perfect
    rw [perfect]
    exact Binary64.rank_injective one

/-- A score is positive exactly for a match, at most one, and one exactly for texts that are equal whatever their case, if the
pattern is not empty. For identifiers of fewer than `2 ^ 30` characters 32 bits hold the weights, and the doubles say the same. -/
theorem matchScore_normalised (pattern id : Text) :
    (0 < exactScore pattern id ↔ pattern.IsSubsequence id) ∧
    exactScore pattern id ≤ 1 ∧
    (exactScore pattern id = 1 ↔ pattern = [] ∨ pattern.map Char.toLower = id.map Char.toLower) ∧
    (∃ c : Closeness, exactScore pattern id = c.ratio ∧ matchScore pattern id = c.score ∧
      (id.length < 2 ^ 30 → c.weight < 2 ^ 32)) ∧
    (id.length < 2 ^ 30 →
      ((Binary64.ofNat 0).rank < (matchScore pattern id).rank ↔ pattern.IsSubsequence id) ∧
      (matchScore pattern id).rank ≤ (Binary64.ofNat 1).rank ∧
      (matchScore pattern id = .ofNat 1 ↔ pattern = [] ∨ pattern.map Char.toLower = id.map Char.toLower)) := by
  obtain ⟨c, exact, double, pos, le, fits⟩ := exists_closeness pattern id
  refine ⟨exactScore_pos_iff, exactScore_le_one pattern id, exactScore_eq_one_iff,
    ⟨c, exact, double, fun short => le.trans_lt (fits short)⟩, fun short => ⟨?_, ?_, ?_⟩⟩
  · rw [rank_matchScore_pos_iff short, exactScore_pos_iff]
  · rw [double]
    exact Binary64.rank_ofRatio_le pos Nat.one_pos (by omega)
  · rw [matchScore_eq_one_iff short, exactScore_eq_one_iff]

/-- Only the case differs. -/
theorem matchScore_normalised_case :
    0 < exactScore "Port".toList "port".toList ∧ exactScore "Port".toList "port".toList = 1 ∧
      matchScore "Port".toList "port".toList = .ofNat 1 ∧ ¬0 < exactScore "ports".toList "port".toList := by
  obtain ⟨positive, -, perfect, -, doubles⟩ := matchScore_normalised "Port".toList "port".toList
  exact ⟨positive.mpr (by decide), perfect.mpr (by decide), (doubles (by decide)).2.2.mpr (by decide),
    fun matched => absurd ((matchScore_normalised "ports".toList "port".toList).1.mp matched) (by decide)⟩

theorem score_lt_append (nonempty : pattern ≠ []) (goesOn : more ≠ []) (matched : (pattern ++ more).IsSubsequence id) :
    exactScore pattern id < exactScore (pattern ++ more) id ∧
    (id.length < 2 ^ 30 → (matchScore pattern id).rank < (matchScore (pattern ++ more) id).rank) := by
  obtain ⟨w, walk⟩ := Walk.exists_of_isSubsequence .leading ' ' matched
  obtain ⟨v, s', last', rest, u, first, second, rfl⟩ := walk.exists_of_append
  have longer : pattern ++ more ≠ [] := List.append_ne_nil_of_left_ne_nil nonempty more
  have less : v < v + u := Nat.lt_add_of_pos_right (second.pos goesOn)
  constructor
  · rw [walk.exactScore_eq longer, first.exactScore_eq nonempty]
    exact div_lt_div_of_pos_right (Nat.cast_lt.mpr less) (Nat.cast_pos.mpr (first.full_pos nonempty))
  · intro short
    rw [walk.matchScore_eq longer, first.matchScore_eq nonempty]
    exact Binary64.rank_ofRatio_lt_of_num less walk.weight_le (by omega)

theorem score_append_lt (nonempty : pattern ≠ []) (goesOn : more ≠ []) (matched : pattern.IsSubsequence id) :
    exactScore pattern (id ++ more) < exactScore pattern id ∧
    ((id ++ more).length < 2 ^ 30 → (matchScore pattern (id ++ more)).rank < (matchScore pattern id).rank) := by
  obtain ⟨w, walk⟩ := Walk.exists_of_isSubsequence .leading ' ' matched
  have longer := walk.append_id more
  have less : 4 * id.length < 4 * (id ++ more).length := by
    have : 0 < more.length := List.length_pos_iff.mpr goesOn
    rw [List.length_append]
    omega
  constructor
  · rw [longer.exactScore_eq nonempty, walk.exactScore_eq nonempty]
    exact div_lt_div_of_pos_left (Nat.cast_pos.mpr (walk.pos nonempty)) (Nat.cast_pos.mpr (walk.full_pos nonempty))
      (Nat.cast_lt.mpr less)
  · intro short
    rw [longer.matchScore_eq nonempty, walk.matchScore_eq nonempty]
    exact Binary64.rank_ofRatio_lt_of_den (walk.pos nonempty) walk.weight_le less (by omega)

/-- No identifier of at least that length is closer than one that begins with the pattern. -/
theorem exactScore_le_of_begins (begins : pattern.map Char.toLower <+: id.map Char.toLower) (length : id.length ≤ id'.length) :
    exactScore pattern id' ≤ exactScore pattern id := by
  rcases score_cases pattern id' with ⟨rfl, exact, -⟩ | ⟨-, exact, -⟩ | ⟨nonempty, w, walk'⟩
  · rw [exact]
    exact (exactScore_eq_one_iff.mpr (.inl rfl)).ge
  · rw [exact]
    exact (exactScore_pos_iff.mpr begins.sublist).le
  · have walk : Walk .leading ' ' pattern id (4 * pattern.length) := Walk.leading_iff.mpr begins
    rw [walk.exactScore_eq nonempty, walk'.exactScore_eq nonempty]
    exact div_le_div₀ (Nat.cast_nonneg _) (Nat.cast_le.mpr walk'.le) (Nat.cast_pos.mpr (walk.full_pos nonempty))
      (Nat.cast_le.mpr (Nat.mul_le_mul_left 4 length))

/-- A longer pattern scores higher as long as it matches, a longer identifier with the same start scores lower, and none of at
least the same length scores higher than one that begins with the pattern. The doubles are ordered likewise. -/
theorem matchScore_monotone (pattern : Text) :
    (pattern ≠ [] → ∀ more id, more ≠ [] → (pattern ++ more).IsSubsequence id →
      exactScore pattern id < exactScore (pattern ++ more) id ∧
      (id.length < 2 ^ 30 → (matchScore pattern id).rank < (matchScore (pattern ++ more) id).rank)) ∧
    (pattern ≠ [] → ∀ id more, pattern.IsSubsequence id → more ≠ [] →
      exactScore pattern (id ++ more) < exactScore pattern id ∧
      ((id ++ more).length < 2 ^ 30 → (matchScore pattern (id ++ more)).rank < (matchScore pattern id).rank)) ∧
    ∀ id id', pattern.map Char.toLower <+: id.map Char.toLower → id.length ≤ id'.length →
      exactScore pattern id' ≤ exactScore pattern id ∧ (matchScore pattern id').rank ≤ (matchScore pattern id).rank := by
  refine ⟨fun nonempty more id goesOn matched => score_lt_append nonempty goesOn matched,
    fun nonempty id more matched goesOn => score_append_lt nonempty goesOn matched, fun id id' begins length => ?_⟩
  have le := exactScore_le_of_begins begins length
  exact ⟨le, rank_matchScore_le le⟩

/-- A start, all of an identifier, and identifiers that are longer. -/
theorem matchScore_monotone_port :
    (matchScore "po".toList "port".toList).rank < (matchScore "port".toList "port".toList).rank ∧
    (matchScore "po".toList "ports".toList).rank < (matchScore "po".toList "port".toList).rank ∧
    (matchScore "po".toList "a.port".toList).rank ≤ (matchScore "po".toList "Port".toList).rank := by
  obtain ⟨byPattern, byLength, byStart⟩ := matchScore_monotone "po".toList
  exact ⟨(byPattern (by decide) "rt".toList "port".toList (by decide) (by decide)).2 (by decide),
    (byLength (by decide) "port".toList "s".toList (by decide) (by decide)).2 (by decide),
    (byStart "Port".toList "a.port".toList (by decide) (by decide)).2⟩

end Offside
