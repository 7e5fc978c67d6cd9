import Mathlib.Data.List.TakeWhile
import Offside.Text.Basic

/-! The last part of a text: what follows the last character that stops. It is the longest end of the text without such a
character. -/
namespace Offside.Text

variable {stops : Char → Bool} {t : Text}

theorem lastPart_suffix (stops : Char → Bool) (t : Text) : lastPart stops t <:+ t := by
  rw [lastPart, ← List.reverse_prefix, List.reverse_reverse]
  exact List.takeWhile_prefix _

theorem not_stops_of_mem_lastPart {x : Char} (member : x ∈ lastPart stops t) : stops x = false := by
  rw [lastPart, List.mem_reverse] at member
  simpa using List.mem_takeWhile_imp member

theorem exists_lastPart (stops : Char → Bool) (t : Text) :
    ∃ a, t = a ++ lastPart stops t ∧ ∀ x ∈ a.getLast?, stops x = true := by
  refine ⟨(t.reverse.dropWhile (!stops ·)).reverse, ?_, fun x last => ?_⟩
  · rw [lastPart, ← List.reverse_append, List.takeWhile_append_dropWhile, List.reverse_reverse]
  · have first := List.head?_dropWhile_not (!stops ·) t.reverse
    rw [List.getLast?_reverse] at last
    rw [last] at first
    simpa using first

theorem lastPart_eq_nil_iff : lastPart stops t = [] ↔ ∀ x ∈ t.getLast?, stops x = true := by
  rw [lastPart, List.getLast?_eq_head?_reverse]
  cases t.reverse <;> simp [List.takeWhile_cons]

/-- A last part lies within one that fewer characters stop. -/
theorem lastPart_lastPart {p q : Char → Bool} (weaker : ∀ c, q c = true → p c = true) (t : Text) :
    lastPart p (lastPart q t) = lastPart p t := by
  have both : (fun c => (!p c) && !q c) = (!p ·) := by
    funext c
    cases stops : q c with
    | false => simp
    | true => simp [weaker c stops]
  rw [lastPart, lastPart, lastPart, List.reverse_reverse, List.takeWhile_takeWhile]
  simp only [Bool.decide_and, Bool.decide_eq_true, both]

theorem lastPart_break (above piece : Text) :
    lastPart (· == '\n') (above ++ '\n' :: piece) = lastPart (· == '\n') piece := by
  simp only [lastPart, List.reverse_append, List.reverse_cons]
  rw [List.append_assoc, List.takeWhile_append]
  split
  next all =>
    have whole := (List.takeWhile_prefix _).eq_of_length all
    simp [whole]
  next => rfl

theorem lastPart_of_notMem {piece : Text} (h : '\n' ∉ piece) : lastPart (· == '\n') piece = piece := by
  rw [lastPart, List.takeWhile_eq_self_iff.mpr, List.reverse_reverse]
  intro c member
  have : c ≠ '\n' := by rintro rfl; exact h (List.mem_reverse.mp member)
  simpa using this

end Offside.Text
