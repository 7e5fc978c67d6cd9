import Mathlib.Data.List.Induction
import Offside.Document.Draft

/-! Drafts as they come about: calls that are recorded one after the other. What a draft holds is read off its calls, the
replacements in the order of the calls and the caret from the last call that matters to it. -/
namespace Offside.Draft

inductive Call where
  | insert (offset : Nat) (text : Text)
  | delete (start stop : Nat)
  | placeCaret (offset : Nat)
  deriving DecidableEq, Repr

def record (d : Draft) : Call → Draft
  | .insert offset text => d.insert offset text
  | .delete start stop => d.delete start stop
  | .placeCaret offset => d.placeCaret offset

def ofCalls (calls : List Call) : Draft := calls.foldl record .empty

namespace Call

def splice? : Call → Option Splice
  | insert offset text => some (.insertion offset text)
  | delete start stop => if start = stop then none else some (.deletion start stop)
  | placeCaret _ => none

def inserted? : Call → Option (Nat × Text)
  | insert offset text => some (offset, text)
  | _ => none

/-- The range that the call deletes, if there is anything in it. -/
def deleted? : Call → Option Span
  | delete start stop => if start = stop then none else some ⟨start, stop⟩
  | _ => none

def placed? : Call → Option Nat
  | placeCaret offset => some offset
  | _ => none

variable (offset start stop : Nat) (text : Text)

@[simp] theorem splice?_insert : (insert offset text).splice? = some (.insertion offset text) := rfl

@[simp] theorem splice?_delete :
    (delete start stop).splice? = if start = stop then none else some (.deletion start stop) := rfl

@[simp] theorem splice?_placeCaret : (placeCaret offset).splice? = none := rfl

@[simp] theorem inserted?_insert : (insert offset text).inserted? = some (offset, text) := rfl

@[simp] theorem inserted?_delete : (delete start stop).inserted? = none := rfl

@[simp] theorem inserted?_placeCaret : (placeCaret offset).inserted? = none := rfl

@[simp] theorem deleted?_insert : (insert offset text).deleted? = none := rfl

@[simp] theorem deleted?_delete : (delete start stop).deleted? = if start = stop then none else some ⟨start, stop⟩ := rfl

@[simp] theorem deleted?_placeCaret : (placeCaret offset).deleted? = none := rfl

theorem splice?_eq_some {call : Call} {s : Splice} (h : call.splice? = some s) :
    (∃ offset text, call = insert offset text ∧ s = .insertion offset text) ∨
      ∃ start stop, call = delete start stop ∧ start ≠ stop ∧ s = .deletion start stop := by
  cases call with
  | insert offset text => exact .inl ⟨offset, text, rfl, (Option.some.inj h).symm⟩
  | delete start stop =>
    by_cases empty : start = stop
    · simp [empty] at h
    · rw [splice?_delete, if_neg empty] at h
      exact .inr ⟨start, stop, rfl, empty, (Option.some.inj h).symm⟩
  | placeCaret offset => contradiction

end Call

def lastInsertion (calls : List Call) : Option (Nat × Text) := (calls.filterMap Call.inserted?).getLast?

def lastPlaced (calls : List Call) : Option Nat := (calls.filterMap Call.placed?).getLast?

/-- Where the caret is before the changes: where it was placed last, or else at the last insertion. -/
def caretInForce (calls : List Call) : Option Nat := (lastPlaced calls).or ((lastInsertion calls).map Prod.fst)

variable {calls : List Call} {call : Call}

theorem ofCalls_concat (calls : List Call) (call : Call) : ofCalls (calls ++ [call]) = (ofCalls calls).record call := by
  rw [ofCalls, List.foldl_append]
  rfl

theorem splices_ofCalls (calls : List Call) : (ofCalls calls).splices = calls.filterMap Call.splice? := by
  induction calls using List.reverseRecOn with
  | nil => rfl
  | append_singleton calls call ih =>
    rw [ofCalls_concat, List.filterMap_append, ← ih]
    cases call with
    | insert offset text => rfl
    | delete start stop =>
      by_cases empty : start = stop <;> simp [record, delete, Call.splice?, empty]
    | placeCaret offset => simp [record, placeCaret, Call.splice?]

theorem lastPlaced_concat (calls : List Call) (call : Call) :
    lastPlaced (calls ++ [call]) = call.placed?.or (lastPlaced calls) := by
  rw [lastPlaced, List.filterMap_append, List.getLast?_append]
  cases call <;> rfl

theorem lastInsertion_concat (calls : List Call) (call : Call) :
    lastInsertion (calls ++ [call]) = call.inserted?.or (lastInsertion calls) := by
  rw [lastInsertion, List.filterMap_append, List.getLast?_append]
  cases call <;> rfl

theorem caret_ofCalls (calls : List Call) : (ofCalls calls).caret =
    ((lastPlaced calls).map CaretHint.atOffset).or ((lastInsertion calls).map fun i => .afterInsertion i.1) := by
  induction calls using List.reverseRecOn with
  | nil => rfl
  | append_singleton calls call ih =>
    rw [ofCalls_concat, lastPlaced_concat, lastInsertion_concat]
    cases call with
    | insert offset text =>
      cases placed : lastPlaced calls <;> cases last : lastInsertion calls <;>
        simp [record, insert, ih, placed, last, Call.placed?, Call.inserted?]
    | delete start stop =>
      have same : ((ofCalls calls).record (.delete start stop)).caret = (ofCalls calls).caret := by
        by_cases empty : start = stop <;> simp [record, delete, empty]
      rw [same, ih]
      rfl
    | placeCaret offset => rfl

theorem offset_caret_ofCalls (calls : List Call) : (ofCalls calls).caret.map CaretHint.offset = caretInForce calls := by
  rw [caret_ofCalls, caretInForce]
  cases lastPlaced calls <;> cases lastInsertion calls <;> rfl

theorem exists_of_lastInsertion {offset : Nat} {text : Text} (h : lastInsertion calls = some (offset, text)) :
    ∃ early late, calls = early ++ .insert offset text :: late ∧ ∀ call ∈ late, call.inserted? = none := by
  induction calls using List.reverseRecOn with
  | nil => contradiction
  | append_singleton calls call ih =>
    rw [lastInsertion_concat] at h
    cases found : call.inserted? with
    | none =>
      rw [found, Option.none_or] at h
      obtain ⟨early, late, rfl, silent⟩ := ih h
      refine ⟨early, late ++ [call], by simp, fun other member => ?_⟩
      rcases List.mem_append.mp member with later | same
      · exact silent other later
      · rwa [List.mem_singleton.mp same]
    | some here =>
      rw [found, Option.some_or] at h
      cases call with
      | insert offset' text' =>
        obtain ⟨rfl, rfl⟩ := Prod.mk.inj (Option.some.inj (found.trans h))
        exact ⟨calls, [], rfl, by simp⟩
      | delete => contradiction
      | placeCaret => contradiction

end Offside.Draft
