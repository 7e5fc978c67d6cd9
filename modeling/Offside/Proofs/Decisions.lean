import Mathlib.Data.List.Basic
import Offside.Promise

/-! Promises as they are used: calls of any number of parties, which take the lock one after the other. The first call that
decides is answered with yes, and from then on nothing changes: whatever is asked, the answer is read off that decision. -/
namespace Offside.PromiseOf

variable {ε α : Type}

inductive Call (ε α : Type) where
  | resolve (value : α)
  | reject (error : ε)
  | cancel
  | get
  /-- The time to wait is over. -/
  | getInTime
  | tryGet
  | isPending
  | isDone
  | isCancelled
  deriving DecidableEq, Repr

inductive Answer (ε α : Type) where
  | flag (yes : Bool)
  | known (outcome : Option (Except (FailureOf ε) α))
  | outcome (outcome : Except (FailureOf ε) α)
  /-- There is nothing to return yet, so the caller waits and asks again. -/
  | waits

def step (p : PromiseOf ε α) : Call ε α → Answer ε α × PromiseOf ε α
  | .resolve value => (.flag (p.resolve value).1, (p.resolve value).2)
  | .reject error => (.flag (p.reject error).1, (p.reject error).2)
  | .cancel => (.flag p.cancel.1, p.cancel.2)
  | .get => (p.outcome?.elim .waits .outcome, p)
  | .getInTime => (.outcome p.outcomeInTime, p)
  | .tryGet => (.known p.outcome?, p)
  | .isPending => (.flag p.isPending, p)
  | .isDone => (.flag p.isDone, p)
  | .isCancelled => (.flag p.isCancelled, p)

/-- What each of the calls is answered, and the promise as that call leaves it. -/
def trace (p : PromiseOf ε α) : List (Call ε α) → List (Answer ε α × PromiseOf ε α)
  | [] => []
  | call :: calls => p.step call :: (p.step call).2.trace calls

namespace Call

def decision? : Call ε α → Option (Except (FailureOf ε) α)
  | resolve value => some (.ok value)
  | reject error => some (.error (.rejected error))
  | cancel => some (.error .cancelled)
  | _ => none

/-- What the call is answered once a decision is known, or while none is. -/
def answer (known : Option (Except (FailureOf ε) α)) : Call ε α → Answer ε α
  | resolve _ | reject _ | cancel => .flag known.isNone
  | get => known.elim .waits .outcome
  | getInTime => .outcome (known.getD (.error .timeout))
  | tryGet => .known known
  | isPending => .flag known.isNone
  | isDone => .flag known.isSome
  | isCancelled => .flag (known matches some (.error .cancelled))

theorem answer_none {call : Call ε α} {outcome : Except (FailureOf ε) α} (decides : call.decision? = some outcome) :
    call.answer none = .flag true := by
  cases call with
  | resolve value => rfl
  | reject error => rfl
  | cancel => rfl
  | _ => contradiction

end Call

variable {p : PromiseOf ε α} {call : Call ε α} {outcome : Except (FailureOf ε) α}

theorem isCancelled_eq (p : PromiseOf ε α) : p.isCancelled = (p.outcome? matches some (.error .cancelled)) := by
  cases p <;> rfl

theorem step_fst (p : PromiseOf ε α) (call : Call ε α) : (p.step call).1 = call.answer p.outcome? := by
  cases call with
  | resolve value => cases p <;> rfl
  | reject error => cases p <;> rfl
  | cancel => cases p <;> rfl
  | isDone => simp [step, Call.answer, isDone, isPending]
  | isCancelled => simp [step, Call.answer, isCancelled_eq]
  | get => rfl
  | getInTime => rfl
  | tryGet => rfl
  | isPending => rfl

theorem step_asking (asks : call.decision? = none) (p : PromiseOf ε α) : (p.step call).2 = p := by
  cases call with
  | resolve value => contradiction
  | reject error => contradiction
  | cancel => contradiction
  | _ => rfl

theorem step_decided (decided : p.outcome? = some outcome) (call : Call ε α) : (p.step call).2 = p := by
  cases p with
  | pending => contradiction
  | resolved value => cases call <;> rfl
  | rejected error => cases call <;> rfl
  | cancelled => cases call <;> rfl

theorem outcome?_step_pending (decides : call.decision? = some outcome) :
    ((pending : PromiseOf ε α).step call).2.outcome? = some outcome := by
  cases call with
  | resolve value => exact decides
  | reject error => exact decides
  | cancel => exact decides
  | _ => contradiction

theorem trace_append {early : List (Call ε α)} (same : ∀ call ∈ early, (p.step call).2 = p) (late : List (Call ε α)) :
    p.trace (early ++ late) = early.map (fun call => (call.answer p.outcome?, p)) ++ p.trace late := by
  induction early with
  | nil => rfl
  | cons call early ih =>
    obtain ⟨first, others⟩ := List.forall_mem_cons.mp same
    have here : p.step call = (call.answer p.outcome?, p) := Prod.ext (step_fst p call) first
    simp [trace, here, ih others]

theorem trace_unchanged (calls : List (Call ε α)) (same : ∀ call ∈ calls, (p.step call).2 = p) :
    p.trace calls = calls.map fun call => (call.answer p.outcome?, p) := by
  simpa [trace] using trace_append same []

/-- A new promise stays pending until some call decides, and from that call on it has that call's decision for good. -/
theorem decided_once (calls : List (Call ε α)) :
    (∀ call ∈ calls, call.decision? = none) ∧ pending.trace calls = calls.map (fun call => (call.answer none, pending)) ∨
    ∃ early first late outcome p, calls = early ++ first :: late ∧ (∀ call ∈ early, call.decision? = none) ∧
      first.decision? = some outcome ∧ p.outcome? = some outcome ∧
      pending.trace calls = early.map (fun call => (call.answer none, pending)) ++
        (.flag true, p) :: late.map fun call => (call.answer (some outcome), p) := by
  cases found : calls.findSome? Call.decision? with
  | none =>
    have asking := List.findSome?_eq_none_iff.mp found
    exact .inl ⟨asking, trace_unchanged calls fun call member => step_asking (asking call member) pending⟩
  | some outcome =>
    obtain ⟨early, first, late, rfl, decides, asking⟩ := List.findSome?_eq_some_iff.mp found
    have before (call : Call ε α) (member : call ∈ early) := step_asking (asking call member) pending
    have decided := outcome?_step_pending decides
    have behind := trace_unchanged late fun call _ => step_decided decided call
    have taken : (pending.step first).1 = .flag true := by
      rw [step_fst]
      exact first.answer_none decides
    refine .inr ⟨early, first, late, outcome, (pending.step first).2, rfl, asking, decides, decided, ?_⟩
    rw [trace_append before, trace, behind, decided, ← taken]
    rfl

/-- An error that is itself a cancellation counts as an error like any other. -/
example : ((pending : PromiseOf Failure Nat).trace [.tryGet, .getInTime, .reject .cancelled, .isCancelled, .cancel, .get]).map
    Prod.fst = [.known none, .outcome (.error .timeout), .flag true, .flag false, .flag false,
      .outcome (.error (.rejected .cancelled))] := rfl

end Offside.PromiseOf
