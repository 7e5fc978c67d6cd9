import Mathlib.Algebra.BigOperators.Group.List.Basic
import Mathlib.Algebra.Order.Ring.Nat
import Offside.Proofs.Sorting
import Offside.Proofs.Weaving

/-! What a preview of recorded calls shows: the text read once from left to right, with what the calls delete left out and
what they insert put in, and the caret where it was placed last, or else behind the last insertion. -/
namespace Offside

open Text

namespace Draft

/-- What calls insert at an offset, in the order in which they were recorded. -/
def insertedAt (calls : List Call) (offset : Nat) : Text :=
  (calls.filterMap Call.inserted?).flatMap fun i => if i.1 = offset then i.2 else []

def deletes (calls : List Call) (offset : Nat) : Bool :=
  (calls.filterMap Call.deleted?).any fun s => s.start ≤ offset && offset < s.stop

/-- A text read once from left to right, with what calls delete left out and what they insert put in. -/
def woven (calls : List Call) (t : Text) : Text := weave (insertedAt calls) (deletes calls) 0 t

/-- The bytes that are inserted at or before a place. -/
def insertedUpTo (calls : List Call) (place : Nat) : Nat :=
  ((calls.filterMap Call.inserted?).map fun i => if i.1 ≤ place then bytes i.2 else 0).sum

/-- The bytes that are deleted before a place. -/
def deletedBefore (calls : List Call) (place : Nat) : Nat :=
  ((calls.filterMap Call.deleted?).map fun s => min s.stop place - s.start).sum

/-- The place where a caret is left by the deletions: the start of the one around it, or else its own. -/
def Settles (calls : List Call) (caret place : Nat) : Prop :=
  (∃ stop, .delete place stop ∈ calls ∧ place < caret ∧ caret < stop) ∨
    (place = caret ∧ ∀ start stop, .delete start stop ∈ calls → ¬(start < caret ∧ caret < stop))

variable {d : Draft} {doc : Document} {calls other : List Call} {s : Splice}

theorem pure_of_mem_splices (member : s ∈ calls.filterMap Call.splice?) : s.Pure := by
  obtain ⟨call, -, recorded⟩ := List.mem_filterMap.mp member
  rcases Call.splice?_eq_some recorded with ⟨offset, text, -, rfl⟩ | ⟨start, stop, -, -, rfl⟩
  · exact .inl rfl
  · exact .inr rfl

theorem written_splices (calls : List Call) (offset : Nat) :
    Splice.written (calls.filterMap Call.splice?) offset = insertedAt calls offset := by
  induction calls with
  | nil => rfl
  | cons call calls ih =>
    rw [Splice.written, insertedAt] at ih ⊢
    cases call with
    | insert o t => simp [Splice.insertion, ih]
    | delete start stop => by_cases empty : start = stop <;> simp [List.filterMap_cons, Splice.deletion, empty, ih]
    | placeCaret o => simp [List.filterMap_cons, ih]

theorem drops_splices (calls : List Call) (offset : Nat) :
    Splice.drops (calls.filterMap Call.splice?) offset = deletes calls offset := by
  induction calls with
  | nil => rfl
  | cons call calls ih =>
    rw [Splice.drops, deletes] at ih ⊢
    cases call with
    | insert o t => simp +contextual [List.filterMap_cons, Splice.insertion, ih, -List.any_filterMap]
    | delete start stop =>
      by_cases empty : start = stop <;> simp [Splice.deletion, empty, ih, -List.any_filterMap]
    | placeCaret o => simp [List.filterMap_cons, ih, -List.any_filterMap]

theorem insertedUpTo_splices (calls : List Call) (place : Nat) :
    Splice.insertedUpTo (calls.filterMap Call.splice?) place = insertedUpTo calls place := by
  induction calls with
  | nil => rfl
  | cons call calls ih =>
    rw [Splice.insertedUpTo, insertedUpTo] at ih ⊢
    cases call with
    | insert o t => simp [Splice.insertion, ih]
    | delete start stop => by_cases empty : start = stop <;> simp [List.filterMap_cons, Splice.deletion, bytes, empty, ih]
    | placeCaret o => simp [List.filterMap_cons, ih]

theorem deletedBefore_splices (calls : List Call) (place : Nat) :
    Splice.deletedBefore (calls.filterMap Call.splice?) place = deletedBefore calls place := by
  induction calls with
  | nil => rfl
  | cons call calls ih =>
    rw [Splice.deletedBefore, deletedBefore] at ih ⊢
    cases call with
    | insert o t => simp [List.filterMap_cons, Splice.insertion, ih]
    | delete start stop => by_cases empty : start = stop <;> simp [Splice.deletion, empty, ih]
    | placeCaret o => simp [List.filterMap_cons, ih]

/-- The order of the document leaves replacements of the same range as they were recorded. -/
theorem filter_sorted {p : Splice → Bool} (level : ∀ a b, p a = true → p b = true → a.le b = true) :
    d.sorted.filter p = d.splices.filter p :=
  filter_mergeSort Splice.le_trans Splice.le_total level d.splices

theorem written_sorted (kinds : ∀ s ∈ d.splices, s.Pure) (offset : Nat) :
    Splice.written d.sorted offset = Splice.written d.splices offset := by
  have alone (splices : List Splice) (kinds : ∀ s ∈ splices, s.Pure) : Splice.written splices offset =
      (splices.filter fun s => s.start = offset ∧ s.stop = offset).flatMap Splice.text := by
    induction splices with
    | nil => rfl
    | cons s splices ih =>
      obtain ⟨kind, kinds⟩ := List.forall_mem_cons.mp kinds
      rw [Splice.written_cons, ih kinds, List.filter_cons]
      by_cases here : s.start = offset
      · by_cases empty : s.stop = offset
        · simp [here, empty]
        · have silent : s.text = [] := kind.resolve_left (by omega)
          simp [here, empty, silent]
      · simp [here]
  have level : ∀ a b : Splice, decide (a.start = offset ∧ a.stop = offset) = true →
      decide (b.start = offset ∧ b.stop = offset) = true → a.le b = true := by
    intro a b inA inB
    rw [decide_eq_true_eq] at inA inB
    rw [Splice.le_iff]
    omega
  rw [alone d.splices kinds, alone d.sorted fun s member => kinds s (d.perm_sorted.mem_iff.mp member), filter_sorted level]

theorem mem_sorted_ofCalls : s ∈ (ofCalls calls).sorted ↔ ∃ call ∈ calls, call.splice? = some s := by
  rw [(perm_sorted _).mem_iff, splices_ofCalls, List.mem_filterMap]

theorem pure_of_mem_sorted (member : s ∈ (ofCalls calls).sorted) : s.Pure := by
  rw [(perm_sorted _).mem_iff, splices_ofCalls] at member
  exact pure_of_mem_splices member

theorem written_sorted_ofCalls (calls : List Call) : Splice.written (ofCalls calls).sorted = insertedAt calls := by
  funext offset
  rw [written_sorted fun s member => pure_of_mem_sorted ((perm_sorted _).mem_iff.mpr member), splices_ofCalls,
    written_splices]

theorem drops_sorted_ofCalls (calls : List Call) : Splice.drops (ofCalls calls).sorted = deletes calls := by
  funext offset
  rw [Splice.drops, (perm_sorted _).any_eq, splices_ofCalls, ← drops_splices, Splice.drops]

theorem insertedUpTo_sorted (calls : List Call) (place : Nat) :
    Splice.insertedUpTo (ofCalls calls).sorted place = insertedUpTo calls place := by
  rw [Splice.insertedUpTo, ((perm_sorted _).map _).sum_eq, splices_ofCalls, ← insertedUpTo_splices, Splice.insertedUpTo]

theorem deletedBefore_sorted (calls : List Call) (place : Nat) :
    Splice.deletedBefore (ofCalls calls).sorted place = deletedBefore calls place := by
  rw [Splice.deletedBefore, ((perm_sorted _).map _).sum_eq, splices_ofCalls, ← deletedBefore_splices,
    Splice.deletedBefore]

section Checked

variable {t : Text} (checked : check t 0 (ofCalls calls).sorted = .ok ())

include checked

theorem foldr_apply_eq_woven : (ofCalls calls).sorted.foldr Splice.apply t = woven calls t := by
  obtain ⟨chained, boundaries⟩ := check_eq_ok_iff.mp checked
  have eq := Splice.foldr_apply_eq_weave (a := []) rfl chained boundaries
  rw [written_sorted_ofCalls, drops_sorted_ofCalls] at eq
  exact eq

theorem foldr_rebase_of_settles {caret place : Nat} (settles : Settles calls caret place) :
    (ofCalls calls).sorted.foldr Splice.rebase caret + deletedBefore calls place = place + insertedUpTo calls place := by
  obtain ⟨chained, -⟩ := check_eq_ok_iff.mp checked
  have moved (outside : ∀ s ∈ (ofCalls calls).sorted, ¬(s.start < place ∧ place < s.stop)) :=
    Splice.foldr_rebase_add chained (fun s => pure_of_mem_sorted) outside
  rw [insertedUpTo_sorted, deletedBefore_sorted] at moved
  rcases settles with ⟨stop, deleted, start, behind⟩ | ⟨rfl, outside⟩
  · have member : .deletion place stop ∈ (ofCalls calls).sorted :=
      mem_sorted_ofCalls.mpr ⟨_, deleted, if_neg (by omega)⟩
    have within : (ofCalls calls).sorted.foldr Splice.rebase caret = (ofCalls calls).sorted.foldr Splice.rebase place :=
      Splice.foldr_rebase_within chained member start behind
    rw [within]
    exact moved fun s inSorted => chained.outside member inSorted
  · refine moved fun s inSorted => ?_
    obtain ⟨call, inCalls, recorded⟩ := mem_sorted_ofCalls.mp inSorted
    rcases Call.splice?_eq_some recorded with ⟨offset, text, rfl, rfl⟩ | ⟨start, stop, rfl, -, rfl⟩
    · exact fun within => Nat.lt_asymm within.1 within.2
    · exact outside start stop inCalls

theorem exists_foldr_rebase_of_lastInsertion {offset : Nat} {inserted : Text}
    (last : lastInsertion calls = some (offset, inserted)) : ∃ front back,
      woven calls (before t offset) = front ++ inserted ∧ woven calls t = front ++ inserted ++ back ∧
        (ofCalls calls).sorted.foldr Splice.rebase offset = bytes (front ++ inserted) := by
  obtain ⟨chained, boundaries⟩ := check_eq_ok_iff.mp checked
  obtain ⟨early, late, rfl, silent⟩ := exists_of_lastInsertion last
  have member : .insertion offset inserted ∈ (ofCalls (early ++ .insert offset inserted :: late)).sorted :=
    mem_sorted_ofCalls.mpr ⟨.insert offset inserted, by simp, rfl⟩
  have boundary : bytes (before t offset) = offset := (boundaries _ member).1
  have cut : t = [] ++ before t offset ++ after t offset := (before_append_after t offset).symm
  have landed := Splice.foldr_rebase_eq_bytes cut chained (fun s => pure_of_mem_sorted) boundaries fun s inSorted => by
    rw [List.nil_append, boundary]
    exact chained.outside member inSorted
  rw [written_sorted_ofCalls, drops_sorted_ofCalls, List.nil_append, boundary] at landed
  have there : ∃ ahead, insertedAt (early ++ .insert offset inserted :: late) offset = ahead ++ inserted := by
    have none : late.filterMap Call.inserted? = [] := List.filterMap_eq_nil_iff.mpr silent
    refine ⟨insertedAt early offset, ?_⟩
    rw [insertedAt, List.filterMap_append, List.filterMap_cons, Call.inserted?_insert, none]
    simp [insertedAt]
  obtain ⟨ahead, there⟩ := there
  obtain ⟨front, eq⟩ := exists_weave_eq (insertedAt (early ++ .insert offset inserted :: late))
    (deletes (early ++ .insert offset inserted :: late)) 0 (before t offset)
  rw [boundary, Nat.zero_add, there, ← List.append_assoc] at eq
  obtain ⟨back, whole⟩ := exists_weave_append (insertedAt (early ++ .insert offset inserted :: late))
    (deletes (early ++ .insert offset inserted :: late)) 0 (before t offset) (after t offset)
  rw [before_append_after, eq] at whole
  exact ⟨front ++ ahead, back, eq, whole, by rw [landed, ← eq]; rfl⟩

end Checked

theorem exists_settles (calls : List Call) (caret : Nat) : ∃ place, Settles calls caret place := by
  by_cases inside : ∃ start stop, .delete start stop ∈ calls ∧ start < caret ∧ caret < stop
  · obtain ⟨start, stop, deleted, within⟩ := inside
    exact ⟨start, .inl ⟨stop, deleted, within⟩⟩
  · exact ⟨caret, .inr ⟨rfl, fun start stop deleted within => inside ⟨start, stop, deleted, within⟩⟩⟩

theorem Consistent.of_perm {t : Text} (h : Consistent calls t) (perm : other.Perm calls)
    (placed : lastPlaced other = lastPlaced calls) : Consistent other t where
  deletions start stop member := h.deletions start stop (perm.mem_iff.mp member)
  insertions offset text member := h.insertions offset text (perm.mem_iff.mp member)
  disjoint := ((perm.filterMap _).pairwise_iff fun apart byte both => apart byte both.symm).mpr h.disjoint
  outside offset text start stop inserted deleted :=
    h.outside offset text start stop (perm.mem_iff.mp inserted) (perm.mem_iff.mp deleted)
  caret offset inForce := by
    rw [caretInForce, placed] at inForce
    cases here : lastPlaced calls with
    | some place =>
      refine h.caret offset ?_
      rw [here] at inForce
      rwa [caretInForce, here]
    | none =>
      rw [here, Option.none_or] at inForce
      obtain ⟨⟨offset, text⟩, last, rfl⟩ := Option.map_eq_some_iff.mp inForce
      obtain ⟨early, late, rfl, -⟩ := exists_of_lastInsertion last
      exact h.insertions offset text (perm.mem_iff.mp (by simp))

/-- A previewed draft is its text read once from left to right, whatever the order of changes at different offsets, with
the caret where it was placed last, or else behind the last insertion. -/
theorem preview_weaves {text : Text} {caret : Option Nat} (ok : (ofCalls calls).preview doc = .ok (text, caret)) :
    text = woven calls doc.text ∧
    (∀ other, other.Perm calls → (∀ offset, insertedAt other offset = insertedAt calls offset) →
      lastPlaced other = lastPlaced calls → ∃ caret', (ofCalls other).preview doc = .ok (text, caret')) ∧
    (∀ placed, lastPlaced calls = some placed → ∃ settled landed, Settles calls placed settled ∧ caret = some landed ∧
      landed + deletedBefore calls settled = settled + insertedUpTo calls settled) ∧
    (∀ offset inserted, lastPlaced calls = none → lastInsertion calls = some (offset, inserted) → ∃ front back,
      woven calls (before doc.text offset) = front ++ inserted ∧ text = front ++ inserted ++ back ∧
        caret = some (bytes (front ++ inserted))) ∧
    (lastPlaced calls = none → lastInsertion calls = none → caret = none) := by
  obtain ⟨checked, -, rfl, rfl⟩ := preview_eq_ok_iff.mp ok
  rw [foldr_apply_eq_woven checked, caret_ofCalls]
  refine ⟨rfl, fun other perm sameTexts samePlace => ?_, fun placed last => ?_, fun offset inserted unplaced last => ?_,
    fun unplaced silent => by rw [unplaced, silent]; rfl⟩
  · have consistent := ((exists_preview_iff calls doc).mp ⟨_, ok⟩).of_perm perm samePlace
    obtain ⟨⟨text', caret'⟩, ok'⟩ := (exists_preview_iff other doc).mpr consistent
    obtain ⟨checked', -, rfl, -⟩ := preview_eq_ok_iff.mp ok'
    have dropped : deletes other = deletes calls := funext fun offset => (perm.filterMap _).any_eq
    rw [foldr_apply_eq_woven checked', woven, funext sameTexts, dropped] at ok'
    exact ⟨caret', ok'⟩
  · obtain ⟨settled, settles⟩ := exists_settles calls placed
    exact ⟨settled, _, settles, by rw [last]; rfl, foldr_rebase_of_settles checked settles⟩
  · obtain ⟨front, back, ahead, whole, landed⟩ := exists_foldr_rebase_of_lastInsertion checked last
    exact ⟨front, back, ahead, whole, by rw [unplaced, last, ← landed]; rfl⟩

/-- A caret within a deletion comes to stand between what is inserted at its start and what is inserted at its end. -/
theorem preview_weaves_within : ∃ settled landed,
    (ofCalls [.delete 1 4, .insert 4 ['x'], .insert 1 ['y'], .placeCaret 2, .insert 1 ['é']]).preview
      ⟨"abcdé".toList⟩ = .ok ("ayéxé".toList, some landed) ∧
    Settles [.delete 1 4, .insert 4 ['x'], .insert 1 ['y'], .placeCaret 2, .insert 1 ['é']] 2 settled ∧
    landed + deletedBefore [.delete 1 4, .insert 4 ['x'], .insert 1 ['y'], .placeCaret 2, .insert 1 ['é']] settled =
      settled + insertedUpTo [.delete 1 4, .insert 4 ['x'], .insert 1 ['y'], .placeCaret 2, .insert 1 ['é']] settled := by
  have ok : (ofCalls [.delete 1 4, .insert 4 ['x'], .insert 1 ['y'], .placeCaret 2, .insert 1 ['é']]).preview
      ⟨"abcdé".toList⟩ = .ok ("ayéxé".toList, some 4) := by
    have sorted : (ofCalls [.delete 1 4, .insert 4 ['x'], .insert 1 ['y'], .placeCaret 2, .insert 1 ['é']]).sorted =
        [.insertion 1 ['y'], .insertion 1 ['é'], .deletion 1 4, .insertion 4 ['x']] := by
      show List.mergeSort [Splice.deletion 1 4, .insertion 4 ['x'], .insertion 1 ['y'], .insertion 1 ['é']] Splice.le = _
      simp [List.mergeSort, List.MergeSort.Internal.splitInTwo, Splice.le, Splice.deletion, Splice.insertion]
    rw [preview, sorted]
    rfl
  obtain ⟨-, -, placed, -⟩ := preview_weaves ok
  obtain ⟨settled, landed, settles, eq, moved⟩ := placed 2 rfl
  obtain rfl := Option.some.inj eq
  exact ⟨settled, 4, ok, settles, moved⟩

end Draft
end Offside
