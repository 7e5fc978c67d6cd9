import Mathlib.Data.List.Basic

/-! Stable sorting: what is level in the order of a sort keeps the order that it had. -/
namespace Offside

variable {α : Type} {le : α → α → Bool}

/-- A part of the list in which all is level comes out as it went in. -/
theorem filter_mergeSort (trans : ∀ a b c, le a b = true → le b c = true → le a c = true)
    (total : ∀ a b, (le a b || le b a) = true) {p : α → Bool} (level : ∀ a b, p a = true → p b = true → le a b = true)
    (items : List α) : (items.mergeSort le).filter p = items.filter p := by
  have apart : (items.filter p).Pairwise fun a b => le a b = true :=
    List.pairwise_iff_forall_sublist.mpr fun {a b} sub => by
      have inA := List.of_mem_filter (sub.subset List.mem_cons_self)
      have inB := List.of_mem_filter (sub.subset (List.mem_cons_of_mem a List.mem_cons_self))
      exact level a b inA inB
  have kept : (items.filter p).Sublist (items.mergeSort le) := List.sublist_mergeSort trans total apart List.filter_sublist
  have inside := kept.filter p
  rw [List.filter_filter] at inside
  simp only [Bool.and_self] at inside
  exact (inside.eq_of_length ((List.mergeSort_perm items le).filter p).length_eq.symm).symm

end Offside
