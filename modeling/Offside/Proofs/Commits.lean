import Offside.Proofs.Buffers
import Offside.Proofs.Weaving

/-! Drafts made on a buffer in place. The whole outcome is there before the buffer is touched, and while the replacements
are made on a copy of its text none of them leaves the bounds of what the ones behind it have left. -/
namespace Offside

open Text Fault

/-- A program that fails leaves the state as it has made it so far. This is the outcome of one that has made nothing of
it when it is refused. -/
def Fault.whole {σ α : Type} (before : σ) : Except EditError (α × σ) → EStateM.Result Fault σ α
  | .ok (a, after) => .ok a after
  | .error e => .error (.refused e) before

theorem Fault.run_read {σ α β : Type} (x : Except Fault α) (next : α → EStateM Fault σ β) (state : σ) :
    (MonadExcept.ofExcept x >>= next : EStateM Fault σ β).run state =
      match x with
      | .ok a => (next a).run state
      | .error fault => .error fault state := by
  cases x <;> rfl

/-- Replaces a range that must lie in the text. -/
def Splice.replaceIn (s : Splice) (t : Text) : Except Fault Text :=
  if s.start ≤ s.stop ∧ Boundary t s.start ∧ Boundary t s.stop then .ok (s.apply t) else .error .outOfBounds

/-- Ranges that follow one another are still there when those behind them have been replaced. -/
theorem Splice.foldrM_replaceIn {splices : List Splice} {t a x : Text} (text : t = a ++ x)
    (chained : Chained (bytes a) splices) (boundaries : ∀ s ∈ splices, Boundary t s.start ∧ Boundary t s.stop) :
    splices.foldrM replaceIn t = .ok (splices.foldr apply t) := by
  induction splices generalizing a x with
  | nil => rfl
  | cons s splices ih =>
    obtain ⟨⟨start, stop⟩, others⟩ := List.forall_mem_cons.mp boundaries
    obtain ⟨b, c, y, rfl, begins, ends⟩ := exists_range text chained.1 chained.2.1 start stop
    have behind : t = a ++ b ++ c ++ y := by simpa using text
    have rest := foldr_apply_eq_weave behind (ends ▸ chained.2.2) others
    have still : Boundary (splices.foldr apply t) s.start ∧ Boundary (splices.foldr apply t) s.stop := by
      rw [rest, begins, ends]
      exact ⟨boundary_left ((List.append_assoc _ _ _)), boundary_left rfl⟩
    rw [List.foldrM_cons, ih behind (ends ▸ chained.2.2) others, List.foldr_cons]
    exact if_pos ⟨chained.2.1, still⟩

namespace Draft

/-- The preview with every replacement checked against the bounds. -/
def previewIn (d : Draft) (b : Buffer) : Except Fault (Text × Option Nat) := do
  lift (check b.text 0 d.sorted)
  match d.caret with
  | none => return (← d.sorted.foldrM Splice.replaceIn b.text, none)
  | some hint =>
    lift (b.checkOffset hint.offset)
    return (← d.sorted.foldrM Splice.replaceIn b.text, some (d.sorted.foldr Splice.rebase hint.offset))

def commit (d : Draft) : EStateM Fault Buffer (Option Selection) := do
  let (text, caret) ← MonadExcept.ofExcept (d.previewIn (← get))
  if d.hasChanges then set (Buffer.of ⟨text⟩)
  return caret.map .caret

variable {calls : List Call}

theorem previewIn_of (d : Draft) (doc : Document) : d.previewIn (.of doc) = lift (d.preview doc) := by
  rw [previewIn, preview]
  simp only [Buffer.toDocument_of]
  cases checked : check doc.text 0 d.sorted with
  | error e => rfl
  | ok =>
    obtain ⟨chained, boundaries⟩ := check_eq_ok_iff.mp checked
    have made : d.sorted.foldrM Splice.replaceIn doc.text = .ok (d.sorted.foldr Splice.apply doc.text) :=
      Splice.foldrM_replaceIn (a := []) rfl chained boundaries
    cases d.caret with
    | none => simp [made, Splice.applyAll_eq, bind, Except.bind, pure, Except.pure]
    | some hint =>
      dsimp only
      cases doc.checkOffset hint.offset with
      | error e => rfl
      | ok => simp [made, Splice.applyAll_eq, bind, Except.bind, pure, Except.pure]

theorem preview_unchanged {d : Draft} {doc : Document} {text : Text} {caret : Option Nat}
    (ok : d.preview doc = .ok (text, caret)) (unchanged : d.hasChanges = false) : text = doc.text := by
  obtain ⟨-, -, rfl, -⟩ := preview_eq_ok_iff.mp ok
  have none : d.splices = [] := by simpa [hasChanges] using unchanged
  simp [sorted, none]

theorem run_commit (d : Draft) (doc : Document) : d.commit.run (.of doc) =
    whole (.of doc) ((d.preview doc).map fun result => (result.2.map .caret, .of ⟨result.1⟩)) := by
  show ((MonadExcept.ofExcept (d.previewIn (.of doc)) >>= _ : EStateM Fault Buffer _).run (.of doc)) = _
  rw [run_read, previewIn_of]
  cases ok : d.preview doc with
  | error e => rfl
  | ok result =>
    obtain ⟨text, caret⟩ := result
    cases changes : d.hasChanges with
    | true => rfl
    | false =>
      obtain rfl := preview_unchanged ok changes
      rfl

/-- Recorded calls apply exactly if they fit together, and then as a whole. If they do not, the buffer keeps its text and
its table of lines. -/
theorem commit_whole (calls : List Call) (doc : Document) :
    ((∃ result, (ofCalls calls).preview doc = .ok result) ↔ Consistent calls doc.text) ∧
    (∀ e, (ofCalls calls).apply doc = .error e ↔ (ofCalls calls).preview doc = .error e) ∧
    (ofCalls calls).commit.run (.of doc) =
      match (ofCalls calls).preview doc with
      | .ok (text, caret) => .ok (caret.map .caret) (.of ⟨text⟩)
      | .error e => .error (.refused e) (.of doc) := by
  refine ⟨exists_preview_iff calls doc, fun e => ?_, ?_⟩
  · rw [apply]
    cases (ofCalls calls).preview doc <;> simp [bind, Except.bind, pure, Except.pure]
  · rw [run_commit]
    cases (ofCalls calls).preview doc <;> rfl

end Draft
end Offside
