import Mathlib.Data.List.Find
import Mathlib.Order.Basic
import Offside.Text.Dictionary

/-! Texts are ordered by their code points as their UTF-8 encodings are by bytes, so that a dictionary has its keys in the order of
their bytes. -/
namespace Offside

namespace Text

def utf8 (t : Text) : List UInt8 := t.flatMap String.utf8EncodeChar

theorem utf8_cons (c : Char) (t : Text) : utf8 (c :: t) = String.utf8EncodeChar c ++ utf8 t :=
  List.flatMap_cons

theorem length_utf8 (t : Text) : t.utf8.length = bytes t := by
  induction t with
  | nil => rfl
  | cons c t ih => rw [utf8_cons, List.length_append, String.length_utf8EncodeChar, ih, bytes]

/-- Encodings of different characters differ before the end of either, so that it does not matter what comes behind them. -/
theorem utf8EncodeChar_append_lt {c d : Char} (less : c < d) (s t : List UInt8) :
    String.utf8EncodeChar c ++ s < String.utf8EncodeChar d ++ t := by
  have order : c.val.toNat < d.val.toNat := less
  have greatest : d.val.toNat < 0x110000 := d.valid.elim (fun low => low.trans (by decide)) And.right
  -- The bytes behind the first are digits to the base 64.
  have second (n : ℕ) : n / 4096 = n / 64 / 64 := (Nat.div_div_eq_div_mul n 64 64).symm
  have third (n : ℕ) : n / 262144 = n / 64 / 64 / 64 := by rw [← second, Nat.div_div_eq_div_mul]
  simp only [String.utf8EncodeChar, second, third]
  generalize c.val.toNat = m at order ⊢
  generalize d.val.toNat = n at order greatest ⊢
  repeat' split
  all_goals
    simp only [List.cons_append, List.nil_append, List.cons_lt_cons_iff, UInt8.lt_iff_toNat_lt, ← UInt8.toNat_inj,
      UInt8.toNat_ofNat']
    omega

theorem utf8_lt_utf8 {a b : Text} (less : a < b) : a.utf8 < b.utf8 := by
  induction a generalizing b with
  | nil =>
    cases b with
    | nil => exact absurd less (List.lt_irrefl [])
    | cons d b =>
      have length : 0 < (utf8 (d :: b)).length := by
        rw [length_utf8, bytes]
        exact Nat.add_pos_left d.utf8Size_pos _
      obtain ⟨byte, rest, encoded⟩ := List.exists_cons_of_length_pos length
      rw [encoded]
      exact List.nil_lt_cons byte rest
  | cons c a ih =>
    cases b with
    | nil => exact absurd less (List.not_lt_nil _)
    | cons d b =>
      rw [utf8_cons, utf8_cons]
      rcases List.cons_lt_cons_iff.mp less with first | ⟨rfl, later⟩
      · exact utf8EncodeChar_append_lt first _ _
      · exact List.append_left_lt (ih later)

theorem utf8_lt_utf8_iff {a b : Text} : a.utf8 < b.utf8 ↔ a < b := by
  refine ⟨fun encoded => ?_, utf8_lt_utf8⟩
  by_contra notLess
  rcases List.le_iff_lt_or_eq.mp (List.not_lt.mp notLess) with greater | rfl
  · exact List.lt_asymm encoded (utf8_lt_utf8 greater)
  · exact List.lt_irrefl _ encoded

end Text

namespace Dictionary

variable {α : Type}

theorem increasing_utf8 (d : Dictionary α) : ((d.entries.map Prod.fst).map Text.utf8).Pairwise (· < ·) :=
  List.pairwise_map.mpr (d.increasing.imp Text.utf8_lt_utf8)

/-- The first key of a range that starts at a text is the first one that is not below it in the order of bytes. -/
theorem firstKey?_eq_find?_utf8 (d : Dictionary α) (start : Text) :
    d.firstKey? start = (d.entries.map Prod.fst).find? fun k => !decide (k.utf8 < start.utf8) := by
  simp only [firstKey?, Text.utf8_lt_utf8_iff]

end Dictionary
end Offside
