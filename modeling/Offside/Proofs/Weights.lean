import Mathlib.Algebra.Group.Nat.Defs
import Mathlib.Data.List.Basic
import Offside.Search.Closeness

/-! Weights of matches. Matching is a walk through an identifier that takes each character of the pattern at its earliest place,
so that the walk for a longer pattern, or through a longer identifier, starts with the walk for the shorter one. The greatest
weight is that of an identifier that begins with the pattern, and 32 bits hold it unless the pattern has `2 ^ 30` characters. -/
namespace Offside

open Text

/-- The characters occur in the other text in this order, whatever their ASCII case. -/
def Text.IsSubsequence (pattern t : Text) : Prop := (pattern.map Char.toLower).Sublist (t.map Char.toLower)

instance (pattern t : Text) : Decidable (pattern.IsSubsequence t) := inferInstanceAs (Decidable (List.Sublist _ _))

theorem Text.IsSubsequence.length_le {pattern t : Text} (matched : pattern.IsSubsequence t) : pattern.length ≤ t.length := by
  simpa using List.Sublist.length_le matched

/-- To take each character at its earliest place misses no match. -/
theorem isSome_weigh? (s : Streak) (last : Char) (pattern id : Text) :
    (weigh? s last pattern id).isSome = true ↔ pattern.IsSubsequence id := by
  induction id generalizing s last pattern with
  | nil => cases pattern <;> simp [weigh?, IsSubsequence]
  | cons c rest ih =>
    cases pattern with
    | nil => simp [weigh?, IsSubsequence]
    | cons p pattern =>
      by_cases same : c.toLower = p.toLower
      · simp [weigh?, same, ih, IsSubsequence]
      · rw [weigh?, if_neg same, ih]
        constructor
        · exact List.Sublist.cons _
        · exact List.Sublist.of_cons_of_ne (Ne.symm same)

theorem isSome_closeness? {pattern id : Text} : (closeness? pattern id).isSome = true ↔ pattern.IsSubsequence id := by
  unfold closeness?
  cases pattern with
  | nil => simp [IsSubsequence]
  | cons p pattern => simp [isSome_weigh?]

namespace Streak

variable {s : Streak} {last c : Char}

theorem weight_pos : 0 < s.weight last c := by
  cases s with
  | leading | running => exact Nat.succ_pos _
  | broken => simp only [weight]; split <;> decide

theorem weight_lt (notLeading : s ≠ leading) : s.weight last c < 4 := by
  cases s with
  | leading => contradiction
  | running => exact Nat.lt_succ_self 3
  | broken => simp only [weight]; split <;> decide

theorem weight_le : s.weight last c ≤ 4 := by
  by_cases leads : s = leading
  · subst leads
    exact Nat.le_refl 4
  · exact Nat.le_of_lt (weight_lt leads)

end Streak

/-- `Walk s last pattern id w`: of what is left of an identifier behind `last`, the pattern takes each of its characters at the
earliest place, and earns the weight `w`. -/
inductive Walk : Streak → Char → Text → Text → Nat → Prop
  | arrived {s last id} : Walk s last [] id 0
  | hit {s last p c pattern rest w} (same : c.toLower = p.toLower) :
      Walk s.afterMatch c pattern rest w → Walk s last (p :: pattern) (c :: rest) (s.weight last c + w)
  | pass {s last p c pattern rest w} (other : c.toLower ≠ p.toLower) :
      Walk .broken c (p :: pattern) rest w → Walk s last (p :: pattern) (c :: rest) w

theorem weigh?_eq_some_iff {s : Streak} {last : Char} {pattern id : Text} {w : Nat} :
    weigh? s last pattern id = some w ↔ Walk s last pattern id w := by
  constructor
  · intro weighed
    fun_induction weigh? s last pattern id generalizing w with
    | case1 =>
      obtain rfl := Option.some.inj weighed
      exact .arrived
    | case2 => contradiction
    | case3 s last p pattern c rest same ih =>
      obtain ⟨v, later, rfl⟩ := Option.map_eq_some_iff.mp weighed
      exact .hit same (ih later)
    | case4 s last p pattern c rest other ih => exact .pass other (ih weighed)
  · intro walk
    induction walk with
    | arrived => simp [weigh?]
    | hit same _ ih => rw [weigh?, if_pos same, ih, Option.map_some]
    | pass other _ ih => rw [weigh?, if_neg other, ih]

/-- Two characters from the start, and two from the start of a word. -/
example : closeness? "sepo".toList "server.port".toList = some ⟨4 + 4 + 2 + 3, 4 * 11⟩ := by decide

namespace Walk

variable {s : Streak} {last : Char} {pattern more id : Text} {w : Nat}

theorem isSubsequence (walk : Walk s last pattern id w) : pattern.IsSubsequence id :=
  (isSome_weigh? s last pattern id).mp (Option.isSome_of_mem (weigh?_eq_some_iff.mpr walk))

theorem exists_of_isSubsequence (s : Streak) (last : Char) (matched : pattern.IsSubsequence id) :
    ∃ w, Walk s last pattern id w := by
  obtain ⟨w, weighed⟩ := Option.isSome_iff_exists.mp ((isSome_weigh? s last pattern id).mpr matched)
  exact ⟨w, weigh?_eq_some_iff.mp weighed⟩

theorem unique {w' : Nat} (walk : Walk s last pattern id w) (walk' : Walk s last pattern id w') : w = w' :=
  Option.some.inj ((weigh?_eq_some_iff.mpr walk).symm.trans (weigh?_eq_some_iff.mpr walk'))

theorem append_id (walk : Walk s last pattern id w) (more : Text) : Walk s last pattern (id ++ more) w := by
  induction walk with
  | arrived => exact .arrived
  | hit same _ ih => exact .hit same ih
  | pass other _ ih => exact .pass other ih

theorem exists_of_append (walk : Walk s last (pattern ++ more) id w) :
    ∃ v s' last' rest u, Walk s last pattern id v ∧ Walk s' last' more rest u ∧ w = v + u := by
  generalize whole : pattern ++ more = longer at walk
  induction walk generalizing pattern with
  | arrived =>
    obtain ⟨rfl, rfl⟩ := List.append_eq_nil_iff.mp whole
    exact ⟨0, .leading, ' ', [], 0, .arrived, .arrived, rfl⟩
  | @hit s last p c tail rest w same walk ih =>
    cases pattern with
    | nil =>
      obtain rfl : more = p :: tail := whole
      exact ⟨0, s, last, c :: rest, _, .arrived, .hit same walk, (Nat.zero_add _).symm⟩
    | cons q pattern =>
      obtain ⟨rfl, tails⟩ := List.cons.inj whole
      obtain ⟨v, s', last', rest', u, first, second, rfl⟩ := ih tails
      exact ⟨_, s', last', rest', u, .hit same first, second, (Nat.add_assoc ..).symm⟩
  | @pass s last p c tail rest w other walk ih =>
    cases pattern with
    | nil =>
      obtain rfl : more = p :: tail := whole
      exact ⟨0, s, last, c :: rest, _, .arrived, .pass other walk, (Nat.zero_add _).symm⟩
    | cons q pattern =>
      obtain ⟨v, s', last', rest', u, first, second, rfl⟩ := ih whole
      obtain ⟨rfl, -⟩ := List.cons.inj whole
      exact ⟨v, s', last', rest', u, .pass other first, second, rfl⟩

theorem length_le (walk : Walk s last pattern id w) : pattern.length ≤ w := by
  induction walk with
  | arrived => exact Nat.le_refl 0
  | @hit s last p c pattern rest w _ _ ih =>
    have earned : 0 < s.weight last c := Streak.weight_pos
    simp only [List.length_cons]
    omega
  | pass _ _ ih => exact ih

theorem pos (walk : Walk s last pattern id w) (nonempty : pattern ≠ []) : 0 < w :=
  Nat.lt_of_lt_of_le (List.length_pos_iff.mpr nonempty) walk.length_le

theorem le (walk : Walk s last pattern id w) : w ≤ 4 * pattern.length := by
  induction walk with
  | arrived => exact Nat.le_refl 0
  | @hit s last p c pattern rest w _ _ ih =>
    have earned : s.weight last c ≤ 4 := Streak.weight_le
    simp only [List.length_cons]
    omega
  | pass _ _ ih => exact ih

theorem lt (walk : Walk s last pattern id w) (notLeading : s ≠ .leading) (nonempty : pattern ≠ []) :
    w < 4 * pattern.length := by
  induction walk with
  | arrived => contradiction
  | @hit s last p c pattern rest w _ walk _ =>
    have earned : s.weight last c < 4 := Streak.weight_lt notLeading
    have later := walk.le
    simp only [List.length_cons]
    omega
  | pass _ _ ih => exact ih nofun nofun

/-- Exactly the identifiers that begin with the pattern, whatever the case, have the greatest weight. -/
theorem leading_iff : Walk .leading last pattern id (4 * pattern.length) ↔
    pattern.map Char.toLower <+: id.map Char.toLower := by
  induction pattern generalizing last id with
  | nil => exact iff_of_true .arrived (List.nil_prefix)
  | cons p pattern ih =>
    constructor
    · intro walk
      generalize weight : 4 * (p :: pattern).length = w at walk
      cases walk with
      | @hit _ _ _ c _ rest w same walk =>
        obtain rfl : w = 4 * pattern.length := by
          simp only [List.length_cons, Streak.weight] at weight
          omega
        simp only [List.map_cons, List.cons_prefix_cons]
        exact ⟨same.symm, ih.mp walk⟩
      | pass other walk =>
        have less := walk.lt nofun nofun
        omega
    · intro begins
      cases id with
      | nil => simp at begins
      | cons c rest =>
        simp only [List.map_cons, List.cons_prefix_cons] at begins
        have walk : Walk .leading last (p :: pattern) (c :: rest) (4 + 4 * pattern.length) :=
          .hit begins.1.symm (ih.mpr begins.2)
        rwa [List.length_cons, Nat.mul_succ, Nat.add_comm]

end Walk

/-! ### Weights in 32 bits -/

/-- Whatever its size, a weight comes to the same in 32 bits as it is added up. -/
theorem total?_eq (s : Streak) (last : Char) (before : UInt32) (pattern id : Text) :
    total? s last before pattern id = (weigh? s last pattern id).map fun w => before + w.toUInt32 := by
  fun_induction weigh? s last pattern id generalizing before with
  | case1 => simp [total?]
  | case2 => rfl
  | case3 s last p pattern c rest same ih =>
    rw [total?, if_pos same, ih, Option.map_map]
    congr 1
    funext w
    simp [UInt32.add_assoc]
  | case4 s last p pattern c rest other ih => rw [total?, if_neg other, ih]

/-- An identifier that begins with `2 ^ 30` characters of a pattern, and no more, has a weight that 32 bits do not tell from none. -/
theorem total?_eq_zero {pattern id : Text} (last : Char) (begins : pattern.map Char.toLower <+: id.map Char.toLower)
    (length : pattern.length = 2 ^ 30) : total? .leading last 0 pattern id = some 0 := by
  rw [total?_eq, weigh?_eq_some_iff.mpr (Walk.leading_iff.mpr begins), length]
  rfl

end Offside
