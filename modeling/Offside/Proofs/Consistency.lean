import Offside.Proofs.Drafts
import Offside.Proofs.Recordings

/-! Which drafts apply. Sorted replacements are only compared with the one before, and that decides it for every two of
them. -/
namespace Offside

open Text

namespace Splice

/-- One of the two ends before the other begins. -/
def Apart (a b : Splice) : Prop := a.stop ≤ b.start ∨ b.stop ≤ a.start

theorem Apart.symm {a b : Splice} (h : Apart a b) : Apart b a := Or.symm h

/-- Each begins where the one before it ends, or behind that, and the first at `reached` or behind. -/
def Chained (reached : Nat) : List Splice → Prop
  | [] => True
  | s :: rest => reached ≤ s.start ∧ s.start ≤ s.stop ∧ Chained s.stop rest

theorem le_iff {a b : Splice} : a.le b = true ↔ a.start < b.start ∨ a.start = b.start ∧ a.stop ≤ b.stop := by
  simp [le]

theorem le_trans (a b c : Splice) (ab : a.le b = true) (bc : b.le c = true) : a.le c = true := by
  rw [le_iff] at *
  omega

theorem le_total (a b : Splice) : (a.le b || b.le a) = true := by
  rw [Bool.or_eq_true, le_iff, le_iff]
  omega

theorem applyAll_eq (splices : List Splice) (t : Text) (caret : Nat) :
    applyAll splices t caret = (splices.foldr apply t, splices.foldr rebase caret) := by
  induction splices with
  | nil => rfl
  | cons s splices ih =>
    rw [applyAll] at ih ⊢
    rw [List.foldr_cons, ih]
    rfl

variable {reached : Nat} {splices : List Splice}

theorem Chained.le_start (h : Chained reached splices) : ∀ s ∈ splices, reached ≤ s.start := by
  induction splices generalizing reached with
  | nil => simp
  | cons s splices ih =>
    obtain ⟨later, ordered, rest⟩ := h
    intro other member
    rcases List.mem_cons.mp member with rfl | member
    · exact later
    · exact Nat.le_trans (Nat.le_trans later ordered) (ih rest other member)

theorem chained_iff (sorted : splices.Pairwise fun a b => a.le b = true) :
    Chained reached splices ↔
      (∀ s ∈ splices, reached ≤ s.start ∧ s.start ≤ s.stop) ∧ splices.Pairwise Apart := by
  induction splices generalizing reached with
  | nil => simp [Chained]
  | cons s splices ih =>
    obtain ⟨first, sorted⟩ := List.pairwise_cons.mp sorted
    constructor
    · rintro ⟨later, ordered, rest⟩
      obtain ⟨bounds, apart⟩ := (ih sorted).mp rest
      refine ⟨fun other member => ?_, List.pairwise_cons.mpr ⟨fun other member => .inl (bounds other member).1, apart⟩⟩
      rcases List.mem_cons.mp member with rfl | member
      · exact ⟨later, ordered⟩
      · have := bounds other member
        exact ⟨by omega, this.2⟩
    · rintro ⟨bounds, apart⟩
      obtain ⟨here, apart⟩ := List.pairwise_cons.mp apart
      obtain ⟨later, ordered⟩ := bounds s List.mem_cons_self
      refine ⟨later, ordered, (ih sorted).mpr ⟨fun other member => ?_, apart⟩⟩
      have valid := (bounds other (List.mem_cons_of_mem s member)).2
      have order := le_iff.mp (first other member)
      -- If the other one ended first, both would be empty and at one place.
      rcases here other member with before | behind
      · exact ⟨before, valid⟩
      · exact ⟨by omega, valid⟩

end Splice

namespace Draft

variable {d : Draft} {doc : Document} {t : Text} {calls : List Call}

theorem perm_sorted (d : Draft) : d.sorted.Perm d.splices := List.mergeSort_perm _ _

theorem pairwise_sorted (d : Draft) : d.sorted.Pairwise fun a b => a.le b = true :=
  List.pairwise_mergeSort Splice.le_trans Splice.le_total d.splices

theorem check_eq_ok_iff {reached : Nat} {splices : List Splice} : check t reached splices = .ok () ↔
    Splice.Chained reached splices ∧ ∀ s ∈ splices, Boundary t s.start ∧ Boundary t s.stop := by
  induction splices generalizing reached with
  | nil => simp [check, Splice.Chained]
  | cons s splices ih =>
    rw [check]
    split
    next invalid =>
      constructor
      · intro h
        contradiction
      · rintro ⟨⟨-, ordered, -⟩, boundaries⟩
        obtain ⟨start, stop⟩ := boundaries s List.mem_cons_self
        exact absurd invalid (by simp [start, stop, ordered])
    next valid =>
      simp only [not_or, Decidable.not_not, Nat.not_lt] at valid
      split
      next overlaps =>
        constructor
        · intro h
          contradiction
        · rintro ⟨⟨later, -⟩, -⟩
          omega
      next later =>
        rw [ih, List.forall_mem_cons]
        constructor
        · rintro ⟨rest, boundaries⟩
          exact ⟨⟨by omega, valid.1, rest⟩, valid.2, boundaries⟩
        · rintro ⟨⟨-, -, rest⟩, -, boundaries⟩
          exact ⟨rest, boundaries⟩

/-- The order in which the replacements were recorded does not matter to the check. -/
theorem check_sorted_iff (d : Draft) (t : Text) : check t 0 d.sorted = .ok () ↔
    (∀ s ∈ d.splices, s.start ≤ s.stop ∧ Boundary t s.start ∧ Boundary t s.stop) ∧ d.splices.Pairwise Splice.Apart := by
  have perm := d.perm_sorted
  rw [check_eq_ok_iff, Splice.chained_iff d.pairwise_sorted, perm.pairwise_iff Splice.Apart.symm]
  simp only [perm.mem_iff, Nat.zero_le, true_and]
  constructor
  · rintro ⟨⟨ordered, apart⟩, boundaries⟩
    exact ⟨fun s member => ⟨ordered s member, boundaries s member⟩, apart⟩
  · rintro ⟨valid, apart⟩
    exact ⟨⟨fun s member => (valid s member).1, apart⟩, fun s member => (valid s member).2⟩

theorem preview_eq_ok_iff {text : Text} {caret : Option Nat} : d.preview doc = .ok (text, caret) ↔
    check doc.text 0 d.sorted = .ok () ∧ (∀ hint ∈ d.caret, Boundary doc.text hint.offset) ∧
      text = d.sorted.foldr Splice.apply doc.text ∧
      caret = d.caret.map fun hint => d.sorted.foldr Splice.rebase hint.offset := by
  rw [preview]
  cases checked : check doc.text 0 d.sorted with
  | error e => simp [bind, Except.bind]
  | ok =>
    cases caret' : d.caret with
    | none => simp [Splice.applyAll_eq, bind, Except.bind, pure, Except.pure, eq_comm]
    | some hint =>
      by_cases boundary : Boundary doc.text hint.offset <;>
        simp [Splice.applyAll_eq, boundary, Document.checkOffset, bind, Except.bind, pure, Except.pure, eq_comm]

end Draft

def Span.Disjoint (a b : Span) : Prop := ∀ byte, ¬((a.start ≤ byte ∧ byte < a.stop) ∧ b.start ≤ byte ∧ byte < b.stop)

theorem Span.disjoint_iff {a b : Span} (nonemptyA : a.start < a.stop) (nonemptyB : b.start < b.stop) :
    a.Disjoint b ↔ a.stop ≤ b.start ∨ b.stop ≤ a.start := by
  constructor
  · intro disjoint
    have := disjoint (max a.start b.start)
    omega
  · intro apart byte
    omega

namespace Draft

/-- The first call does not insert in the middle of what the second one deletes. -/
def Call.Outside : Call → Call → Prop
  | insert offset _, delete start stop => offset ≤ start ∨ stop ≤ offset
  | _, _ => True

theorem Call.apart_iff {a b : Call} (orderedA : ∀ x, a.deleted? = some x → x.start < x.stop)
    (orderedB : ∀ x, b.deleted? = some x → x.start < x.stop) :
    (∀ x, a.splice? = some x → ∀ y, b.splice? = some y → x.Apart y) ↔
      (∀ x, a.deleted? = some x → ∀ y, b.deleted? = some y → x.Disjoint y) ∧ a.Outside b ∧ b.Outside a := by
  cases a with
  | placeCaret => simp [splice?, deleted?, Outside]
  | insert o t =>
    cases b with
    | placeCaret => simp [splice?, deleted?, Outside]
    | insert o' t' => simp [splice?, deleted?, Outside, Splice.Apart, Splice.insertion, Nat.le_total]
    | delete s e =>
      by_cases empty : s = e
      · subst empty
        simp [splice?, deleted?, Outside]
        omega
      · simp [splice?, deleted?, Outside, Splice.Apart, Splice.insertion, Splice.deletion, empty]
  | delete s e =>
    by_cases empty : s = e
    · subst empty
      cases b <;> simp [splice?, deleted?, Outside]
      omega
    · cases b with
      | placeCaret => simp [splice?, deleted?, Outside]
      | insert o' t' =>
        simp [splice?, deleted?, Outside, Splice.Apart, Splice.insertion, Splice.deletion, empty]
        omega
      | delete s' e' =>
        by_cases empty' : s' = e'
        · subst empty'
          simp [splice?, deleted?, Outside]
        · have ordered := orderedA ⟨s, e⟩ (if_neg empty)
          have ordered' := orderedB ⟨s', e'⟩ (if_neg empty')
          have := Span.disjoint_iff ordered ordered'
          simp [splice?, deleted?, Outside, Splice.Apart, Splice.deletion, empty, empty', this]

/-- Calls that fit together: what they delete and where they insert lies at boundaries of the text, no byte is deleted
twice, and nothing is inserted in the middle of what is deleted. -/
structure Consistent (calls : List Call) (t : Text) : Prop where
  deletions : ∀ start stop, .delete start stop ∈ calls → start ≠ stop →
    start < stop ∧ Boundary t start ∧ Boundary t stop
  insertions : ∀ offset text, .insert offset text ∈ calls → Boundary t offset
  disjoint : (calls.filterMap Call.deleted?).Pairwise Span.Disjoint
  outside : ∀ offset text start stop, .insert offset text ∈ calls → .delete start stop ∈ calls →
    ¬(start < offset ∧ offset < stop)
  caret : ∀ offset ∈ caretInForce calls, Boundary t offset

theorem Call.outside_iff {calls : List Call} : (∀ a ∈ calls, ∀ b ∈ calls, a.Outside b) ↔
    ∀ offset text start stop, .insert offset text ∈ calls → .delete start stop ∈ calls →
      ¬(start < offset ∧ offset < stop) := by
  constructor
  · intro outside offset text start stop inserted deleted
    have : offset ≤ start ∨ stop ≤ offset := outside _ inserted _ deleted
    omega
  · intro outside a memberA b memberB
    cases a with
    | delete => trivial
    | placeCaret => trivial
    | insert offset text =>
      cases b with
      | insert => trivial
      | placeCaret => trivial
      | delete start stop =>
        have := outside offset text start stop memberA memberB
        show offset ≤ start ∨ stop ≤ offset
        omega

theorem Call.exists_of_deleted? {call : Call} {span : Span} (h : call.deleted? = some span) :
    call = .delete span.start span.stop ∧ span.start ≠ span.stop := by
  cases call with
  | insert => contradiction
  | placeCaret => contradiction
  | delete start stop =>
    by_cases empty : start = stop
    · simp [deleted?, empty] at h
    · simp only [deleted?, if_neg empty, Option.some.injEq] at h
      subst h
      exact ⟨rfl, empty⟩

theorem pairwise_apart_iff {calls : List Call} (ordered : ∀ call ∈ calls, ∀ x, call.deleted? = some x → x.start < x.stop) :
    (calls.filterMap Call.splice?).Pairwise Splice.Apart ↔ (calls.filterMap Call.deleted?).Pairwise Span.Disjoint ∧
      ∀ a ∈ calls, ∀ b ∈ calls, a.Outside b := by
  rw [List.pairwise_filterMap, List.pairwise_filterMap]
  constructor
  · intro apart
    have both := apart.imp_of_mem fun inA inB h => (Call.apart_iff (ordered _ inA) (ordered _ inB)).mp h
    refine ⟨both.imp And.left, ?_⟩
    exact List.Pairwise.forall_of_forall_of_flip (fun a _ => by cases a <;> trivial) (both.imp fun h => h.2.1)
      (both.imp fun h => h.2.2)
  · rintro ⟨disjoint, outside⟩
    refine disjoint.imp_of_mem fun inA inB h => ?_
    exact (Call.apart_iff (ordered _ inA) (ordered _ inB)).mpr ⟨h, outside _ inA _ inB, outside _ inB _ inA⟩

theorem splices_valid_iff {calls : List Call} {t : Text} :
    (∀ s ∈ calls.filterMap Call.splice?, s.start ≤ s.stop ∧ Boundary t s.start ∧ Boundary t s.stop) ↔
      (∀ start stop, .delete start stop ∈ calls → start ≠ stop →
        start < stop ∧ Boundary t start ∧ Boundary t stop) ∧
      ∀ offset text, .insert offset text ∈ calls → Boundary t offset := by
  constructor
  · intro valid
    constructor
    · intro start stop member nonempty
      have deletion := valid (.deletion start stop) (List.mem_filterMap.mpr ⟨_, member, if_neg nonempty⟩)
      exact ⟨Nat.lt_of_le_of_ne deletion.1 nonempty, deletion.2⟩
    · intro offset text member
      exact (valid (.insertion offset text) (List.mem_filterMap.mpr ⟨_, member, rfl⟩)).2.1
  · rintro ⟨deletions, insertions⟩ s member
    obtain ⟨call, inCalls, recorded⟩ := List.mem_filterMap.mp member
    rcases Call.splice?_eq_some recorded with ⟨offset, text, rfl, rfl⟩ | ⟨start, stop, rfl, nonempty, rfl⟩
    · have boundary := insertions offset text inCalls
      exact ⟨Nat.le_refl _, boundary, boundary⟩
    · obtain ⟨ordered, boundaries⟩ := deletions start stop inCalls nonempty
      exact ⟨Nat.le_of_lt ordered, boundaries⟩

/-- Recorded calls are previewed exactly if they fit together. -/
theorem exists_preview_iff (calls : List Call) (doc : Document) :
    (∃ result, (ofCalls calls).preview doc = .ok result) ↔ Consistent calls doc.text := by
  have caret : (∀ hint ∈ (ofCalls calls).caret, Boundary doc.text hint.offset) ↔
      ∀ offset ∈ caretInForce calls, Boundary doc.text offset := by
    rw [← offset_caret_ofCalls]
    simp
  have ordered (deletions : ∀ start stop, .delete start stop ∈ calls → start ≠ stop →
      start < stop ∧ Boundary doc.text start ∧ Boundary doc.text stop) :
      ∀ call ∈ calls, ∀ x, call.deleted? = some x → x.start < x.stop := by
    intro call member x deleted
    obtain ⟨rfl, nonempty⟩ := Call.exists_of_deleted? deleted
    exact (deletions x.start x.stop member nonempty).1
  constructor
  · rintro ⟨⟨text, caret'⟩, ok⟩
    obtain ⟨checked, placed, -⟩ := preview_eq_ok_iff.mp ok
    obtain ⟨valid, apart⟩ := (check_sorted_iff _ _).mp checked
    rw [splices_ofCalls] at valid apart
    obtain ⟨deletions, insertions⟩ := splices_valid_iff.mp valid
    obtain ⟨disjoint, outside⟩ := (pairwise_apart_iff (ordered deletions)).mp apart
    exact ⟨deletions, insertions, disjoint, Call.outside_iff.mp outside, caret.mp placed⟩
  · intro consistent
    refine ⟨_, preview_eq_ok_iff.mpr ⟨(check_sorted_iff _ _).mpr ?_, caret.mpr consistent.caret, rfl, rfl⟩⟩
    rw [splices_ofCalls]
    exact ⟨splices_valid_iff.mpr ⟨consistent.deletions, consistent.insertions⟩,
      (pairwise_apart_iff (ordered consistent.deletions)).mpr ⟨consistent.disjoint, Call.outside_iff.mpr consistent.outside⟩⟩

end Draft
end Offside
