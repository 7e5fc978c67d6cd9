import Mathlib.Algebra.Order.Field.Basic
import Mathlib.Algebra.Order.Field.Power
import Mathlib.Tactic.Linarith
import Mathlib.Tactic.Ring
import Offside.Number.Binary64

/-! Rounding to doubles keeps the order: the double nearest to a quotient does not fall when the quotient grows, and it grows if the
quotient grows by more than the step between neighbouring doubles. -/
namespace Offside.Binary64

/-- No two patterns share a place in the total order of doubles. -/
theorem rank_injective {x y : Binary64} (same : x.rank = y.rank) : x = y := by
  obtain ⟨x⟩ := x
  obtain ⟨y⟩ := y
  congr 1
  apply UInt64.toNat_inj.mp
  have boundX := x.toNat_lt
  have boundY := y.toNat_lt
  by_cases negX : signBit ≤ x.toNat <;> by_cases negY : signBit ≤ y.toNat <;>
    simp only [rank, isNegative, magnitude, negX, negY, decide_true, decide_false, if_true, Bool.false_eq_true, if_false] at same <;>
    simp only [signBit] at negX negY same <;>
    omega

theorem roundDiv_mul_left {k : ℕ} (pos : 0 < k) (num den : ℕ) : roundDiv (k * num) (k * den) = roundDiv num den := by
  have less : 2 * (k * (num % den)) < k * den ↔ 2 * (num % den) < den := by
    rw [Nat.mul_left_comm, Nat.mul_lt_mul_left pos]
  have level : 2 * (k * (num % den)) = k * den ↔ 2 * (num % den) = den := by
    rw [Nat.mul_left_comm, Nat.mul_right_inj pos.ne']
  simp only [roundDiv, Nat.mul_div_mul_left _ _ pos, Nat.mul_mod_mul_left, less, level]

theorem roundDiv_mono {num num' den : ℕ} (le : num ≤ num') : roundDiv num den ≤ roundDiv num' den := by
  have quotients : num / den ≤ num' / den := Nat.div_le_div_right le
  have whole := Nat.div_add_mod num den
  have whole' := Nat.div_add_mod num' den
  simp only [roundDiv]
  rcases quotients.eq_or_lt with same | less
  · rw [same] at whole ⊢
    split <;> split <;> omega
  · split <;> split <;> omega

theorem roundDiv_le_roundDiv {a b c d : ℕ} (posB : 0 < b) (posD : 0 < d) (le : a * d ≤ c * b) :
    roundDiv a b ≤ roundDiv c d := by
  calc roundDiv a b
    _ = roundDiv (d * a) (d * b) := (roundDiv_mul_left posD a b).symm
    _ ≤ roundDiv (b * c) (d * b) := roundDiv_mono (by rwa [Nat.mul_comm d, Nat.mul_comm b])
    _ = roundDiv c d := by rw [Nat.mul_comm d, roundDiv_mul_left posB]

theorem roundDiv_near (num : ℕ) {den : ℕ} (pos : 0 < den) :
    (num / den : ℚ) - 1 / 2 ≤ roundDiv num den ∧ (roundDiv num den : ℚ) ≤ num / den + 1 / 2 := by
  have whole : (num : ℚ) = den * (num / den : ℕ) + (num % den : ℕ) := by exact_mod_cast (Nat.div_add_mod num den).symm
  have rest : ((num % den : ℕ) : ℚ) < den := by exact_mod_cast Nat.mod_lt num pos
  have posQ : (0 : ℚ) < den := by exact_mod_cast pos
  rw [whole, add_div, mul_div_cancel_left₀ _ posQ.ne']
  have part : ((num % den : ℕ) : ℚ) / den < 1 := (div_lt_one posQ).mpr rest
  simp only [roundDiv]
  split
  next down =>
    have half : ((num % den : ℕ) : ℚ) / den ≤ 1 / 2 := by
      rw [div_le_iff₀ posQ]
      have : 2 * (num % den) ≤ den := by omega
      have : (2 * (num % den : ℕ) : ℚ) ≤ den := by exact_mod_cast this
      linarith
    have nonneg : (0 : ℚ) ≤ ((num % den : ℕ) : ℚ) / den := by positivity
    constructor <;> linarith
  next up =>
    have half : 1 / 2 ≤ ((num % den : ℕ) : ℚ) / den := by
      rw [le_div_iff₀ posQ]
      have : den ≤ 2 * (num % den) := by omega
      have : (den : ℚ) ≤ 2 * (num % den : ℕ) := by exact_mod_cast this
      linarith
    push_cast
    constructor <;> linarith

theorem scaling_pos (e : ℤ) : 0 < (scaling e).1 ∧ 0 < (scaling e).2 := by
  simp [scaling, twoTo, Nat.one_shiftLeft]

theorem scaled_eq (num den : ℕ) (e : ℤ) :
    ((num * (scaling e).1 : ℕ) : ℚ) / (den * (scaling e).2 : ℕ) = num / den * 2 ^ (-e) := by
  have factor : ((scaling e).1 : ℚ) / (scaling e).2 = 2 ^ (-e) := by
    simp only [scaling, twoTo, Nat.one_shiftLeft, Nat.cast_pow, Nat.cast_ofNat]
    rw [← zpow_natCast, ← zpow_natCast, ← zpow_sub₀ two_ne_zero]
    congr 1
    omega
  rw [← factor]
  push_cast
  exact mul_div_mul_comm ..

/-- In steps of `2 ^ e` a quotient has a significand of at most 53 bits, and of no fewer if there are smaller steps. -/
structure InBinade (x : ℚ) (e : ℤ) : Prop where
  least_le : leastExponent ≤ e
  lt : x < 2 ^ (e + 53)
  le : e = leastExponent ∨ 2 ^ (e + 52) ≤ x

theorem log2_bounds {n : ℕ} (pos : 0 < n) : (2 : ℚ) ^ (n.log2 : ℤ) ≤ n ∧ (n : ℚ) < 2 ^ ((n.log2 : ℤ) + 1) := by
  constructor
  · exact_mod_cast Nat.log2_self_le pos.ne'
  · exact_mod_cast Nat.lt_log2_self

/-- The lengths of numerator and denominator give the quotient up to a factor of two. -/
theorem quotient_bounds {num den : ℕ} (posNum : 0 < num) (posDen : 0 < den) :
    2 ^ ((num.log2 : ℤ) - den.log2 - 1) ≤ (num / den : ℚ) ∧ (num / den : ℚ) < 2 ^ ((num.log2 : ℤ) - den.log2 + 1) := by
  have posQ : (0 : ℚ) < den := by exact_mod_cast posDen
  obtain ⟨lowNum, highNum⟩ := log2_bounds posNum
  obtain ⟨lowDen, highDen⟩ := log2_bounds posDen
  constructor
  · rw [le_div_iff₀ posQ]
    calc (2 : ℚ) ^ ((num.log2 : ℤ) - den.log2 - 1) * den
      _ ≤ 2 ^ ((num.log2 : ℤ) - den.log2 - 1) * 2 ^ ((den.log2 : ℤ) + 1) := by gcongr
      _ = 2 ^ (num.log2 : ℤ) := by rw [← zpow_add₀ two_ne_zero]; congr 1; omega
      _ ≤ num := lowNum
  · rw [div_lt_iff₀ posQ]
    calc (num : ℚ)
      _ < 2 ^ ((num.log2 : ℤ) + 1) := highNum
      _ = 2 ^ ((num.log2 : ℤ) - den.log2 + 1) * 2 ^ (den.log2 : ℤ) := by rw [← zpow_add₀ two_ne_zero]; congr 1; omega
      _ ≤ 2 ^ ((num.log2 : ℤ) - den.log2 + 1) * den := by gcongr

theorem scaled_lt_leadingBit_iff (num : ℕ) {den : ℕ} (posDen : 0 < den) (e : ℤ) :
    num * (scaling e).1 / (den * (scaling e).2) < leadingBit ↔ (num / den : ℚ) < 2 ^ (e + 52) := by
  have posScaled : 0 < den * (scaling e).2 := Nat.mul_pos posDen (scaling_pos e).2
  rw [Nat.div_lt_iff_lt_mul posScaled, ← Nat.cast_lt (α := ℚ), Nat.cast_mul leadingBit, ← div_lt_iff₀ (by exact_mod_cast posScaled),
    scaled_eq, zpow_neg, ← div_eq_mul_inv, div_lt_iff₀ (by positivity), zpow_add₀ two_ne_zero, mul_comm]
  norm_num [leadingBit]

theorem inBinade_exponentFor {num den : ℕ} (posNum : 0 < num) (posDen : 0 < den) :
    InBinade (num / den) (exponentFor num den) := by
  obtain ⟨low, high⟩ := quotient_bounds posNum posDen
  obtain ⟨e, guess⟩ : ∃ e : ℤ, e = (num.log2 : ℤ) - den.log2 - 52 := ⟨_, rfl⟩
  obtain ⟨f, chosen⟩ : ∃ f : ℤ, f = if (num / den : ℚ) < 2 ^ (e + 52) then e - 1 else e := ⟨_, rfl⟩
  have exponent : exponentFor num den = max leastExponent f := by
    rw [exponentFor, ← guess, chosen]
    simp only [scaled_lt_leadingBit_iff num posDen]
  -- Without a least exponent the significand would always have 53 bits.
  have within : 2 ^ (f + 52) ≤ (num / den : ℚ) ∧ (num / den : ℚ) < 2 ^ (f + 53) := by
    split at chosen
    next below => exact ⟨by convert low using 2; omega, by convert below using 2; omega⟩
    next above => exact ⟨chosen ▸ not_lt.mp above, by convert high using 2; omega⟩
  rw [exponent]
  refine ⟨le_max_left _ _, within.2.trans_le (zpow_le_zpow_right₀ one_le_two (by omega)), ?_⟩
  rcases max_choice leastExponent f with least | normal
  · exact .inl least
  · exact .inr (by rw [normal]; exact within.1)

namespace InBinade

variable {x y : ℚ} {e f : ℤ}

theorem le_of_le (ofX : InBinade x e) (ofY : InBinade y f) (le : x ≤ y) : e ≤ f := by
  by_contra! less
  have normal : 2 ^ (e + 52) ≤ x := ofX.le.resolve_left (by have := ofY.least_le; omega)
  have powers : (2 : ℚ) ^ (f + 53) ≤ 2 ^ (e + 52) := zpow_le_zpow_right₀ one_le_two (by omega)
  linarith [ofY.lt]

theorem scaled_lt (ofX : InBinade x e) : x * 2 ^ (-e) < 2 ^ 53 := by
  rw [zpow_neg, ← div_eq_mul_inv, div_lt_iff₀ (by positivity)]
  calc x
    _ < 2 ^ (e + 53) := ofX.lt
    _ = 2 ^ 53 * 2 ^ e := by rw [zpow_add₀ two_ne_zero, mul_comm]; norm_num

theorem le_scaled (ofX : InBinade x e) (normal : e ≠ leastExponent) : 2 ^ 52 ≤ x * 2 ^ (-e) := by
  rw [zpow_neg, ← div_eq_mul_inv, le_div_iff₀ (by positivity)]
  calc (2 : ℚ) ^ 52 * 2 ^ e
    _ = 2 ^ (e + 52) := by rw [zpow_add₀ two_ne_zero, mul_comm]; norm_num
    _ ≤ x := ofX.le.resolve_left normal

end InBinade

/-- The significand of a quotient, rounded. -/
def significand (num den : ℕ) (e : ℤ) : ℕ := roundDiv (num * (scaling e).1) (den * (scaling e).2)

/-- How many doubles there are from zero up to the one nearest to a positive quotient, if none were too large. -/
def steps (num den : ℕ) : ℕ :=
  (exponentFor num den - leastExponent).toNat * leadingBit + significand num den (exponentFor num den)

section Significand

variable {num den a b c d : ℕ} {e f : ℤ}

theorem cast_leadingBit : (leadingBit : ℚ) = 2 ^ 52 := by norm_num [leadingBit]

theorem significand_near (num : ℕ) (posDen : 0 < den) (e : ℤ) :
    (num / den * 2 ^ (-e) : ℚ) - 1 / 2 ≤ significand num den e ∧ (significand num den e : ℚ) ≤ num / den * 2 ^ (-e) + 1 / 2 := by
  rw [significand, ← scaled_eq]
  exact roundDiv_near _ (Nat.mul_pos posDen (scaling_pos e).2)

theorem significand_le_significand (posB : 0 < b) (posD : 0 < d) (le : a * d ≤ c * b) (e : ℤ) :
    significand a b e ≤ significand c d e := by
  refine roundDiv_le_roundDiv (Nat.mul_pos posB (scaling_pos e).2) (Nat.mul_pos posD (scaling_pos e).2) ?_
  calc a * (scaling e).1 * (d * (scaling e).2)
    _ = a * d * ((scaling e).1 * (scaling e).2) := by ring
    _ ≤ c * b * ((scaling e).1 * (scaling e).2) := Nat.mul_le_mul_right _ le
    _ = c * (scaling e).1 * (b * (scaling e).2) := by ring

theorem significand_le (posDen : 0 < den) (binade : InBinade (num / den) e) : significand num den e ≤ 2 * leadingBit := by
  have near := (significand_near num posDen e).2
  have less := binade.scaled_lt
  have close : (significand num den e : ℚ) < (2 * leadingBit + 1 : ℕ) := by
    push_cast [cast_leadingBit]
    linarith
  exact Nat.lt_succ_iff.mp (Nat.cast_lt.mp close)

theorem le_significand (posDen : 0 < den) (binade : InBinade (num / den) e) (normal : e ≠ leastExponent) :
    leadingBit ≤ significand num den e := by
  have near := (significand_near num posDen e).1
  have le := binade.le_scaled normal
  have close : (leadingBit : ℚ) < (significand num den e + 1 : ℕ) := by
    push_cast [cast_leadingBit]
    linarith
  exact Nat.lt_succ_iff.mp (Nat.cast_lt.mp close)

/-- Exponents and significands of doubles are ordered as pairs. -/
theorem toNat_mul_le (least : leastExponent ≤ e) (less : e < f) :
    (e - leastExponent).toNat * leadingBit + leadingBit ≤ (f - leastExponent).toNat * leadingBit := by
  have apart : (e - leastExponent).toNat + 1 ≤ (f - leastExponent).toNat := by omega
  calc (e - leastExponent).toNat * leadingBit + leadingBit
    _ = ((e - leastExponent).toNat + 1) * leadingBit := (Nat.succ_mul ..).symm
    _ ≤ _ := Nat.mul_le_mul_right leadingBit apart

theorem steps_le_steps (posA : 0 < a) (posB : 0 < b) (posC : 0 < c) (posD : 0 < d) (le : a * d ≤ c * b) :
    steps a b ≤ steps c d := by
  have first := inBinade_exponentFor posA posB
  have second := inBinade_exponentFor posC posD
  have quotients : (a / b : ℚ) ≤ c / d := by
    rw [div_le_div_iff₀ (by exact_mod_cast posB) (by exact_mod_cast posD)]
    exact_mod_cast le
  unfold steps
  rcases (first.le_of_le second quotients).eq_or_lt with same | less
  · rw [same]
    exact Nat.add_le_add_left (significand_le_significand posB posD le _) _
  · have apart := toNat_mul_le first.least_le less
    have most := significand_le posB first
    have least := le_significand posD second (by have := first.least_le; omega)
    omega

/-- In steps that lie between two quotients, their significands differ by more than one before rounding. -/
theorem scaled_apart {x y : ℚ} (apart : x + 2 ^ e < y) : x * 2 ^ (-e) + 1 < y * 2 ^ (-e) := by
  have := mul_lt_mul_of_pos_right apart (by positivity : (0 : ℚ) < 2 ^ (-e))
  rwa [add_mul, ← zpow_add₀ two_ne_zero, add_neg_cancel, zpow_zero] at this

theorem significand_lt_significand (posB : 0 < b) (posD : 0 < d) (apart : (a / b : ℚ) + 2 ^ e < c / d) :
    significand a b e < significand c d e := by
  have below := (significand_near a posB e).2
  have above := (significand_near c posD e).1
  have scaled := scaled_apart apart
  have : (significand a b e : ℚ) < significand c d e := by linarith
  exact Nat.cast_lt.mp this

/-- The steps at the greater quotient are twice as long, so that it is the significands that tell the two apart. -/
theorem significand_lt_two_mul (posB : 0 < b) (posD : 0 < d) (apart : (a / b : ℚ) + 2 ^ (e + 1) < c / d) :
    significand a b e < 2 * significand c d (e + 1) := by
  have below := (significand_near a posB e).2
  have above := (significand_near c posD (e + 1)).1
  have scaled := scaled_apart apart
  have halved : (2 : ℚ) ^ (-e) = 2 * 2 ^ (-(e + 1)) := by
    rw [neg_add, zpow_add₀ two_ne_zero, zpow_neg_one]
    ring
  rw [halved] at below
  have : (significand a b e : ℚ) < (2 * significand c d (e + 1) : ℕ) := by
    push_cast
    linarith
  exact Nat.cast_lt.mp this

/-- Quotients that are further apart than the step at the greater one have different doubles. -/
theorem steps_lt_steps (posA : 0 < a) (posB : 0 < b) (posC : 0 < c) (posD : 0 < d)
    (apart : (a / b : ℚ) + 2 ^ exponentFor c d < c / d) : steps a b < steps c d := by
  have first := inBinade_exponentFor posA posB
  have second := inBinade_exponentFor posC posD
  have least := first.least_le
  have step : (0 : ℚ) < 2 ^ exponentFor c d := by positivity
  unfold steps
  rcases (first.le_of_le second (by linarith)).eq_or_lt with same | less
  · rw [same]
    exact Nat.add_lt_add_left (significand_lt_significand posB posD apart) _
  · have most := significand_le posB first
    have normal := le_significand posD second (by omega)
    rcases (Int.add_one_le_of_lt less).eq_or_lt with next | far
    · rw [← next] at apart normal ⊢
      have close := significand_lt_two_mul posB posD apart
      have nearer := toNat_mul_le least (lt_add_one _)
      omega
    · have nearer := toNat_mul_le least (lt_add_one _)
      have further := toNat_mul_le (by omega) far
      have : 0 < leadingBit := by decide
      omega

end Significand

variable {num den a b c d : ℕ}

theorem rank_ofRatio (pos : 0 < num) (den : ℕ) : (ofRatio num den).rank = (min (steps num den) infinity : ℕ) := by
  have cap : min (steps num den) infinity ≤ infinity := Nat.min_le_right _ _
  have bits : (ofRatio num den).bits.toNat = min (steps num den) infinity := by
    rw [ofRatio, if_neg pos.ne']
    refine UInt64.toNat_ofNat_of_lt' (cap.trans_lt ?_)
    decide
  have sign : infinity < signBit := by decide
  rw [rank, isNegative, magnitude, bits, Nat.mod_eq_of_lt (cap.trans_lt sign), decide_eq_false (by omega)]
  rfl

@[simp] theorem rank_ofRatio_zero (den : ℕ) : (ofRatio 0 den).rank = 0 := by
  rfl

theorem rank_ofRatio_nonneg (num den : ℕ) : 0 ≤ (ofRatio num den).rank := by
  rcases num.eq_zero_or_pos with rfl | pos
  · exact Int.le_refl 0
  · rw [rank_ofRatio pos]
    exact Int.natCast_nonneg _

theorem rank_ofRatio_le (posB : 0 < b) (posD : 0 < d) (le : a * d ≤ c * b) : (ofRatio a b).rank ≤ (ofRatio c d).rank := by
  rcases a.eq_zero_or_pos with rfl | posA
  · exact rank_ofRatio_nonneg c d
  · have posC : 0 < c := Nat.pos_of_mul_pos_right ((Nat.mul_pos posA posD).trans_le le)
    rw [rank_ofRatio posA, rank_ofRatio posC, Int.ofNat_le]
    exact min_le_min_right infinity (steps_le_steps posA posB posC posD le)

theorem step_le {x : ℚ} {e : ℤ} (binade : InBinade x e) (normal : 2 ^ (-1022 : ℤ) ≤ x) : 2 ^ e ≤ x * 2 ^ (-52 : ℤ) := by
  have enough {y : ℚ} (exponent : 2 ^ (e + 52) = y) (le : y ≤ x) : 2 ^ e ≤ x * 2 ^ (-52 : ℤ) := by
    calc (2 : ℚ) ^ e
      _ = 2 ^ (e + 52) * 2 ^ (-52 : ℤ) := by rw [← zpow_add₀ two_ne_zero]; congr 1; omega
      _ ≤ x * 2 ^ (-52 : ℤ) := by rw [exponent]; gcongr
  rcases binade.le with rfl | le
  · exact enough rfl normal
  · exact enough rfl le

theorem steps_pos (posD : 0 < d) (step : (2 : ℚ) ^ exponentFor c d ≤ c / d) : 0 < steps c d := by
  have near := (significand_near c posD (exponentFor c d)).1
  have scaled : (1 : ℚ) ≤ c / d * 2 ^ (-exponentFor c d) := by
    rwa [zpow_neg, ← div_eq_mul_inv, one_le_div (by positivity)]
  have pos : (0 : ℚ) < significand c d (exponentFor c d) := by linarith
  exact Nat.add_pos_right _ (Nat.cast_pos.mp pos)

/-- Of two quotients up to one, the greater one has a greater double if it is greater by more than one part in `2 ^ 52`. -/
theorem rank_ofRatio_lt (posB : 0 < b) (posC : 0 < c) (le : c ≤ d) (fits : d ≤ 2 ^ 32)
    (apart : a * d * 2 ^ 52 + c * b < c * b * 2 ^ 52) : (ofRatio a b).rank < (ofRatio c d).rank := by
  have posD : 0 < d := posC.trans_le le
  have posBQ : (0 : ℚ) < b := by exact_mod_cast posB
  have posDQ : (0 : ℚ) < d := by exact_mod_cast posD
  have normal : (2 : ℚ) ^ (-1022 : ℤ) ≤ c / d := by
    have bound : (d : ℚ) ≤ 2 ^ (32 : ℤ) := by exact_mod_cast fits
    rw [le_div_iff₀ posDQ]
    calc (2 : ℚ) ^ (-1022 : ℤ) * d
      _ ≤ 2 ^ (-32 : ℤ) * 2 ^ (32 : ℤ) := by gcongr <;> norm_num
      _ = 1 := by rw [← zpow_add₀ two_ne_zero, neg_add_cancel, zpow_zero]
      _ ≤ c := by exact_mod_cast posC
  have step := step_le (inBinade_exponentFor posC posD) normal
  have quotients : (a / b : ℚ) < c / d * (1 - 2 ^ (-52 : ℤ)) := by
    have scaled : (a * d * 2 ^ 52 + c * b : ℚ) < c * b * 2 ^ 52 := by exact_mod_cast apart
    rw [div_mul_eq_mul_div, div_lt_div_iff₀ posBQ posDQ]
    norm_num at scaled ⊢
    linarith
  have uncapped : steps c d < infinity := by
    have most : steps c d ≤ steps 1 1 := steps_le_steps posC posD one_pos one_pos (by omega)
    have : steps 1 1 < infinity := by decide
    omega
  rw [rank_ofRatio posC, min_eq_left uncapped.le]
  rcases a.eq_zero_or_pos with rfl | posA
  · rw [rank_ofRatio_zero, Int.natCast_pos]
    refine steps_pos posD (step.trans (mul_le_of_le_one_right (by positivity) ?_))
    norm_num
  · rw [rank_ofRatio posA, Int.ofNat_lt]
    exact (min_le_left _ _).trans_lt (steps_lt_steps posA posB posC posD (by linarith))

theorem rank_ofRatio_lt_of_num {v w n : ℕ} (less : v < w) (le : w ≤ n) (fits : n ≤ 2 ^ 32) :
    (ofRatio v n).rank < (ofRatio w n).rank := by
  have posN : 0 < n := by omega
  refine rank_ofRatio_lt posN (by omega) le fits ?_
  have apart : v * 2 ^ 52 + w < w * 2 ^ 52 := by omega
  calc v * n * 2 ^ 52 + w * n
    _ = (v * 2 ^ 52 + w) * n := by ring
    _ < w * 2 ^ 52 * n := Nat.mul_lt_mul_of_pos_right apart posN
    _ = w * n * 2 ^ 52 := by ring

theorem rank_ofRatio_lt_of_den {w m n : ℕ} (pos : 0 < w) (le : w ≤ m) (less : m < n) (fits : n ≤ 2 ^ 32) :
    (ofRatio w n).rank < (ofRatio w m).rank := by
  refine rank_ofRatio_lt (by omega) pos le (by omega) ?_
  have apart : m * 2 ^ 52 + n < n * 2 ^ 52 := by omega
  calc w * m * 2 ^ 52 + w * n
    _ = w * (m * 2 ^ 52 + n) := by ring
    _ < w * (n * 2 ^ 52) := Nat.mul_lt_mul_of_pos_left apart pos
    _ = w * n * 2 ^ 52 := by ring

end Offside.Binary64
