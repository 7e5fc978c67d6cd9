import Offside.Text.Diagnostic

/-!
Promises: values that are decided at most once. The first of `resolve`, `reject` and `cancel` decides, and
everyone who asks later learns that decision.
-/
namespace Offside

/-- Why no value comes. `ε` is what a promise may be rejected with. -/
inductive FailureOf (ε : Type) where
  | cancelled
  | rejected (error : ε)
  /-- The time to wait is over; the promise stays pending. -/
  | timeout
  deriving DecidableEq, Repr

/-- An error that was given for the rejection is none of the promise's own, not even if it is a cancellation. -/
def FailureOf.isCancelled {ε : Type} : FailureOf ε → Bool
  | cancelled => true
  | _ => false

/-- A rejection that says why. -/
abbrev Failure := FailureOf Text

def Failure.message : Failure → Text
  | .cancelled => "future was cancelled".toList
  | .rejected message => "future was rejected: ".toList ++ message
  | .timeout => "timed out waiting for future".toList

inductive PromiseOf (ε α : Type) where
  | pending
  | resolved (value : α)
  | rejected (error : ε)
  | cancelled
  deriving DecidableEq, Repr

abbrev Promise (α : Type) := PromiseOf Text α

namespace PromiseOf

variable {ε α : Type}

/-- Takes the decision if none was taken; the flag tells whether it was. -/
def settle (p : PromiseOf ε α) (decision : PromiseOf ε α) : Bool × PromiseOf ε α :=
  match p with
  | pending => (true, decision)
  | _ => (false, p)

def resolve (p : PromiseOf ε α) (value : α) : Bool × PromiseOf ε α := p.settle (.resolved value)

def reject (p : PromiseOf ε α) (error : ε) : Bool × PromiseOf ε α := p.settle (.rejected error)

def cancel (p : PromiseOf ε α) : Bool × PromiseOf ε α := p.settle .cancelled

/-- What is known without waiting; a decision by then is what waiting gives. -/
def outcome? : PromiseOf ε α → Option (Except (FailureOf ε) α)
  | pending => none
  | resolved value => some (.ok value)
  | rejected error => some (.error (.rejected error))
  | cancelled => some (.error .cancelled)

/-- What is known when the time to wait is over. -/
def outcomeInTime (p : PromiseOf ε α) : Except (FailureOf ε) α := p.outcome?.getD (.error .timeout)

def isPending (p : PromiseOf ε α) : Bool := p.outcome?.isNone

def isDone (p : PromiseOf ε α) : Bool := !p.isPending

def isCancelled : PromiseOf ε α → Bool
  | cancelled => true
  | _ => false

def diagnostic (p : PromiseOf ε α) : Text :=
  let state := match p with
    | pending => "Pending"
    | resolved _ => "Resolved"
    | rejected _ => "Rejected"
    | cancelled => "Cancelled"
  Diagnostic.record "ResolvableFuture" [("state", Text.Quoted.encode state.toList)]

end PromiseOf

/-- A promise and those who wait. Whoever waited for a promise that was given up has its outcome. -/
structure Waiting (α : Type) where
  promise : Promise α
  answered : List (Except Failure α)
  waiters : Nat

namespace Waiting

variable {α : Type}

def start : Waiting α := ⟨.pending, [], 0⟩

def join (w : Waiting α) : Waiting α := { w with waiters := w.waiters + 1 }

def count (w : Waiting α) : Nat := w.answered.length + w.waiters

/-- The outcomes of all who wait, in the order in which they came; none while the promise is pending. -/
def outcomes? (w : Waiting α) : Option (List (Except Failure α)) :=
  w.promise.outcome?.map fun outcome => w.answered ++ List.replicate w.waiters outcome

/-- Gives the promise up for a new one. -/
def renew (w : Waiting α) : Waiting α :=
  let given := { w with promise := w.promise.cancel.2 }
  ⟨.pending, given.outcomes?.getD [], 0⟩

/-- Everyone has left. -/
def dismiss (w : Waiting α) : Waiting α := { w with answered := [], waiters := 0 }

end Waiting
end Offside
