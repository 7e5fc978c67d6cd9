import Offside.Completion.Change
import Offside.Proofs.Commits
import Offside.Proofs.Growth

/-! Key paths that are recorded in place. The programs look nodes up by number and read a buffer line by line, and the draft
is theirs to change on the way. What a program has recorded before it is refused would stay, so it must look up everything
first. -/
namespace Offside

open Text Fault

/-- A program on a draft. -/
abbrev Recorder := EStateM Fault Draft

def Recorder.read {α : Type} (x : Except Fault α) : Recorder α := MonadExcept.ofExcept x

/-- Reads lines upwards to the end of the first one that is written on. -/
def Buffer.lastWritten (b : Buffer) : Nat → Except Fault Nat
  | 0 => do
    if (← b.indentation 0).isSome then return (← b.lineSpan 0).stop else return b.length
  | n + 1 => do
    if (← b.indentation (n + 1)).isSome then return (← b.lineSpan (n + 1)).stop else b.lastWritten n

namespace Outline

open Recorder

def node (o : Outline) (i : Nat) : Except Fault Node := lookUp o.nodes i

/-- The children of a node, each looked up by its number. -/
def listed (o : Outline) (i : Nat) : Except Fault (List (Node × Nat)) := do
  let _ ← o.node i
  (o.children i).mapM fun child => return (← o.node child.2, child.2)

def enterValueIn (o : Outline) (b : Buffer) (i : Nat) : Recorder Unit := do
  match (← read (o.listed i)).find? (!·.1.isGap) with
  | some child => modify (·.placeCaret child.1.start)
  | none =>
    match (← read (o.node i)).kind.colon? with
    | none => return
    | some colon =>
      let _ ← read (lift (b.charAt colon))
      modify (·.placeCaret (if b.charAt? (colon + 1) = some ' ' then colon + 2 else colon + 1))

def growthOffsetIn (o : Outline) (b : Buffer) (i : Nat) : Except Fault Nat := do
  let children ← o.listed i
  if (← o.node i).kind = .root ∧ (children.find? (!·.1.isGap)).isNone then return b.length
  else b.lastWritten (← b.lineOf (o.blockEnd i))

def childColumnIn (o : Outline) (i : Nat) : Except Fault Nat := do
  match (← o.node i).kind with
  | .root => return 0
  | kind => return kind.column?.getD 0 + indentStep

def growNewIn (o : Outline) (b : Buffer) (i : Nat) (path : KeyPath) (value : Text) : Recorder Unit := do
  let column ← read (o.childColumnIn i)
  let offset ← read (o.growthOffsetIn b i)
  let fresh := !isBlank (← read (b.lineBefore offset))
  let br ← read b.lineBreak
  modify (·.insert offset (grownText br column fresh path value))

def growIn (o : Outline) (b : Buffer) (i : Nat) (path : KeyPath) (value : Text) : Recorder Unit :=
  match path with
  | [] => o.enterValueIn b i
  | key :: keys => do
    match (← read (o.listed i)).find? (·.1.kind.name? == some key) with
    | some child => o.growIn b child.2 keys value
    | none => o.growNewIn b i (key :: keys) value

/-- Whether a line of its own is started at an offset. Behind the dash of an entry none is, whatever the line holds. -/
def freshIn (o : Outline) (b : Buffer) (i offset : Nat) : Except Fault Bool := do
  match (← o.node i).kind with
  | .entry _ => return false
  | _ => return !isBlank (← b.lineBefore offset)

def growAtIn (o : Outline) (b : Buffer) (i : Nat) (path : KeyPath) (offset : Nat) (value : Text) : Recorder Unit := do
  let fresh ← read (o.freshIn b i offset)
  let column ← read (if fresh then o.childColumnIn i else return (← b.lineBefore offset).length)
  let br ← read b.lineBreak
  modify (·.insert offset (grownText br column fresh path value))

/-- What is recorded by way of an outline, at nodes of it. -/
inductive Call (o : Outline) where
  | grow (node : Fin o.nodes.length) (path : KeyPath) (value : Text)
  | growAt (node : Fin o.nodes.length) (path : KeyPath) (offset : Nat) (value : Text)
  | insert (offset : Nat) (text : Text)
  | delete (start stop : Nat)

namespace Call

variable {o : Outline}

def draft (call : o.Call) (doc : Document) (draft : Draft) : Except EditError Draft :=
  match call with
  | grow node path value => o.grow doc node path value draft
  | growAt node path offset value => o.growAt doc node path offset value draft
  | insert offset text => .ok (draft.insert offset text)
  | delete start stop => .ok (draft.delete start stop)

def record (call : o.Call) (b : Buffer) : Recorder Unit :=
  match call with
  | grow node path value => o.growIn b node path value
  | growAt node path offset value => o.growAtIn b node path offset value
  | insert offset text => modify (·.insert offset text)
  | delete start stop => modify (·.delete start stop)

/-- The draft after calls made one after the other, whatever came of each. -/
def recorded (b : Buffer) (calls : List o.Call) : Draft :=
  calls.foldl (fun draft call =>
    match (call.record b).run draft with
    | .ok _ after | .error _ after => after) .empty

/-- The draft of the calls that are accepted. -/
def accepted (doc : Document) (calls : List o.Call) : Draft :=
  calls.foldl (fun draft call =>
    match call.draft doc draft with
    | .ok after => after
    | .error _ => draft) .empty

end Call
end Outline

namespace PathInsertion

open Recorder

def reusesIn (p : PathInsertion) (o : Outline) (context : Nat) : Except Fault Bool := do
  match p.path.head? with
  | none => return false
  | some key =>
    match (← o.listed context).find? (·.1.kind.name? == some key) with
    | none => return false
    | some child =>
      let n ← o.node child.2
      return !(n.start ≤ p.word.start && p.word.start ≤ n.stop)

def growIn (p : PathInsertion) (o : Outline) (b : Buffer) (context : Nat) : Recorder Unit := do
  if ← read (p.reusesIn o context) then o.growIn b context p.path p.value
  else o.growAtIn b context p.path p.word.start p.value

def recordIn (p : PathInsertion) (b : Buffer) : Recorder Unit := do
  modify (·.delete p.word.start p.word.stop)
  p.growIn b.outline b (b.outline.context p.word.start p.column)

/-- Reads the outline off the buffer as it is, records into a draft of its own and then makes that draft's changes. -/
def commit (p : PathInsertion) : EStateM Fault Buffer (Option Selection) := do
  match (p.recordIn (← get)).run .empty with
  | .ok _ draft => draft.commit
  | .error fault _ => throw fault

end PathInsertion

variable {d : Document} {o : Outline} {i : Nat} {path : KeyPath} {value : Text} {offset : Nat}

namespace Recorder

/-- The program makes of a draft what `f` makes of it. It is refused when `f` is, and has recorded nothing then. -/
def Records (program : Recorder Unit) (f : Draft → Except EditError Draft) : Prop :=
  ∀ draft, program.run draft = whole draft ((f draft).map fun after => ((), after))

variable {α : Type} {next : α → Recorder Unit} {f : Draft → Except EditError Draft}

theorem records_modify (g : Draft → Draft) : Records (modify g) fun draft => .ok (g draft) := fun _ => rfl

theorem Records.found {x : Except Fault α} {a : α} (h : Records (next a) f) (found : x = .ok a) :
    Records (read x >>= next) f := by
  subst found
  exact h

theorem records_read (x : Except EditError α) {f : α → Draft → Except EditError Draft}
    (h : ∀ a, Records (next a) (f a)) : Records (read (lift x) >>= next) fun draft => x >>= fun a => f a draft := by
  intro draft
  cases x with
  | error e => rfl
  | ok a => exact h a draft

end Recorder

open Recorder

theorem Buffer.lastWritten_of {n : Nat} (within : n < d.lines.length) : (of d).lastWritten n =
    .ok ((((d.lines.take (n + 1)).reverse.find? fun l => (Text.indentation l.content).isSome).map Line.stop).getD d.length) := by
  have step (n : Nat) (within : n < d.lines.length) : ∃ l, d.lines.take (n + 1) = d.lines.take n ++ [l] ∧
      (of d).indentation n = .ok (Text.indentation l.content) ∧ (of d).lineSpan n = .ok ⟨l.start, l.stop⟩ := by
    have split : d.lines = d.lines.take n ++ d.lines[n] :: d.lines.drop (n + 1) := by simp
    have number : (d.lines.take n).length = n := by simp; omega
    refine ⟨d.lines[n], by simp, ?_, ?_⟩
    · rw [← indentation_split split, number]
    · rw [← lineSpan_split split, number]
  induction n with
  | zero =>
    obtain ⟨l, taken, reads, spans⟩ := step 0 within
    rw [lastWritten, reads, spans, taken]
    cases h : Text.indentation l.content <;> simp [h, bind, Except.bind, pure, Except.pure, toDocument_of]
  | succ n ih =>
    obtain ⟨l, taken, reads, spans⟩ := step (n + 1) within
    rw [lastWritten, reads, spans, taken]
    cases h : Text.indentation l.content <;>
      simp [h, bind, Except.bind, pure, Except.pure, ih (by omega)]

theorem Document.lineOf_lt {n : Nat} (h : d.lineOf offset = .ok n) : n < d.lines.length := by
  obtain ⟨upper, l, lower, above, tail, lead, split, cut, front, oneLine, -⟩ := d.exists_cut_at offset
  by_cases boundary : Boundary d.text offset
  · obtain rfl := Except.ok.inj ((lineOf_eq cut boundary front oneLine).symm.trans h)
    simp [split]
  · simp [lineOf, checkOffset, boundary, bind, Except.bind] at h

namespace Outline

theorem mem_zipIdx_of_mem_children {child : Node × Nat} (member : child ∈ o.children i) :
    o.nodes[child.2]? = some child.1 :=
  List.mk_mem_zipIdx_iff_getElem?.mp (List.mem_of_mem_filter member)

theorem listed_eq {n : Node} (found : o.nodes[i]? = some n) : o.listed i = .ok (o.children i) := by
  have all : ∀ children : List (Node × Nat), (∀ child ∈ children, o.nodes[child.2]? = some child.1) →
      (children.mapM fun child => return (← o.node child.2, child.2) : Except Fault _) = .ok children := by
    intro children there
    induction children with
    | nil => rfl
    | cons child children ih =>
      obtain ⟨here, rest⟩ := List.forall_mem_cons.mp there
      rw [List.mapM_cons, ih rest, node, lookUp_eq here]
      rfl
  rw [listed, node, lookUp_eq found]
  exact all _ fun child => mem_zipIdx_of_mem_children

theorem firstChild?_eq_find? (o : Outline) (i : Nat) : o.firstChild? i = (o.children i).find? (!·.1.isGap) := by
  rw [firstChild?, realChildren, List.head?_filter]

theorem childColumnIn_eq {n : Node} (found : o.nodes[i]? = some n) : o.childColumnIn i = .ok (o.childColumn i) := by
  rw [childColumnIn, node, lookUp_eq found, childColumn, kindOf_eq found]
  show (match n.kind with | .root => _ | kind => _) = _
  cases n.kind <;> rfl

theorem growthOffsetIn_eq {n : Node} (found : o.nodes[i]? = some n) :
    o.growthOffsetIn (.of d) i = lift (o.growthOffset d i) := by
  rw [growthOffsetIn, listed_eq found, node, lookUp_eq found, growthOffset, kindOf_eq found, firstChild?_eq_find?]
  show (if _ then _ else _) = _
  split
  next => rfl
  next =>
    rw [Buffer.lineOf_of]
    cases line : d.lineOf (o.blockEnd i) with
    | error e => rfl
    | ok n => exact Buffer.lastWritten_of (Document.lineOf_lt line)

theorem records_enterValue {n : Node} (found : o.nodes[i]? = some n) :
    Records (o.enterValueIn (.of d) i) (o.enterValue d i) := by
  refine Records.found ?_ (listed_eq found)
  rw [← firstChild?_eq_find?]
  unfold enterValue
  rw [kindOf_eq found]
  cases o.firstChild? i with
  | some child => exact fun _ => rfl
  | none =>
    refine Records.found ?_ (lookUp_eq found)
    cases n.kind.colon? with
    | none => exact fun _ => rfl
    | some colon => exact records_read (d.charAt colon) fun _ => records_modify _

theorem records_growNew {n : Node} (found : o.nodes[i]? = some n) :
    Records (o.growNewIn (.of d) i path value) (o.growNew d i path value) := by
  refine Records.found ?_ (childColumnIn_eq found)
  rw [growthOffsetIn_eq found]
  refine records_read _ fun offset => ?_
  rw [Buffer.lineBefore_of]
  refine records_read _ fun lead => ?_
  exact Records.found (records_modify _) (Buffer.lineBreak_of d)

theorem records_grow {n : Node} (found : o.nodes[i]? = some n) :
    Records (o.growIn (.of d) i path value) (o.grow d i path value) := by
  induction path generalizing i n with
  | nil => exact records_enterValue found
  | cons key keys ih =>
    refine Records.found ?_ (listed_eq found)
    intro draft
    rw [grow, follow, childNamed?]
    cases named : (o.children i).find? (·.1.kind.name? == some key) with
    | none => exact records_growNew found draft
    | some child => exact ih (mem_zipIdx_of_mem_children (List.mem_of_find?_eq_some named)) draft

theorem freshIn_of_error {n : Node} {e : EditError} (found : o.nodes[i]? = some n)
    (refused : d.lineBefore offset = .error e) : o.freshIn (.of d) i offset = .ok false ∨
      o.freshIn (.of d) i offset = .error (.refused e) := by
  rw [freshIn, node, lookUp_eq found, Buffer.lineBefore_of, refused]
  show (match n.kind with | .entry _ => _ | _ => _) = _ ∨ (match n.kind with | .entry _ => _ | _ => _) = _
  cases n.kind with
  | entry => exact .inl rfl
  | _ => exact .inr rfl

theorem freshIn_of_ok {n : Node} {lead : Text} (found : o.nodes[i]? = some n) (reads : d.lineBefore offset = .ok lead) :
    o.freshIn (.of d) i offset = .ok (!(match n.kind with | .entry _ => true | _ => false) && !isBlank lead) := by
  rw [freshIn, node, lookUp_eq found, Buffer.lineBefore_of, reads]
  show (match n.kind with | .entry _ => _ | _ => _) = _
  cases n.kind <;> rfl

theorem records_growAt {n : Node} (found : o.nodes[i]? = some n) :
    Records (o.growAtIn (.of d) i path offset value) (o.growAt d i path offset value) := by
  unfold growAtIn growAt
  rw [kindOf_eq found, childColumnIn_eq found, Buffer.lineBefore_of, Buffer.lineBreak_of]
  cases reads : d.lineBefore offset with
  | error e =>
    rcases freshIn_of_error found reads with fresh | refused
    · rw [fresh]
      exact fun _ => rfl
    · rw [refused]
      exact fun _ => rfl
  | ok lead =>
    refine Records.found ?_ (freshIn_of_ok found reads)
    have records (fresh : Bool) : Records (do
        let column ← read (if fresh then .ok (o.childColumn i) else return (← lift (.ok lead)).length)
        let br ← read (.ok d.lineBreak)
        modify (·.insert offset (grownText br column fresh path value))) fun draft =>
          .ok (draft.insert offset (grownText d.lineBreak (if fresh then o.childColumn i else lead.length) fresh path value)) := by
      cases fresh <;> exact fun _ => rfl
    exact records _

theorem contextFrom_lt {column : Nat} (within : i < o.nodes.length) : o.contextFrom offset column i < o.nodes.length := by
  fun_induction contextFrom o offset column i with
  | case1 i none => exact within
  | case2 i n j found descends ih => exact ih (bounds_of_lastChildBefore found).2
  | case3 i n j found stays => exact within

theorem Call.records (call : o.Call) : Recorder.Records (call.record (.of d)) (call.draft d) := by
  cases call with
  | grow node path value => exact records_grow (List.getElem?_eq_getElem node.isLt)
  | growAt node path offset value => exact records_growAt (List.getElem?_eq_getElem node.isLt)
  | insert offset text => exact fun _ => rfl
  | delete start stop => exact fun _ => rfl

/-- Calls that are refused leave nothing behind. -/
theorem Call.recorded_eq (calls : List o.Call) : recorded (.of d) calls = accepted d calls := by
  rw [recorded, accepted]
  congr 1
  funext draft call
  rw [call.records draft]
  cases call.draft d draft <;> rfl

end Outline

namespace PathInsertion

theorem reusesIn_eq {p : PathInsertion} {context : Nat} {n : Node} (found : o.nodes[context]? = some n) :
    p.reusesIn o context = .ok (p.reuses o context) := by
  rw [reusesIn, reuses]
  cases p.path.head? with
  | none => rfl
  | some key =>
    rw [Outline.listed_eq found, Option.bind_some, Outline.childNamed?]
    cases named : (o.children context).find? (·.1.kind.name? == some key) with
    | none => simp [named, bind, Except.bind, pure, Except.pure]
    | some child =>
      have there := Outline.mem_zipIdx_of_mem_children (List.mem_of_find?_eq_some named)
      simp [named, Outline.node, lookUp_eq there, there, bind, Except.bind, pure, Except.pure]

theorem records_grow {p : PathInsertion} {context : Nat} {n : Node} (found : o.nodes[context]? = some n) :
    Recorder.Records (p.growIn o (.of d) context) fun draft =>
      if p.reuses o context then o.grow d context p.path p.value draft
      else o.growAt d context p.path p.word.start p.value draft := by
  refine Recorder.Records.found ?_ (reusesIn_eq found)
  split
  next => exact Outline.records_grow found
  next => exact Outline.records_growAt found

theorem run_recordIn (p : PathInsertion) (d : Document) : (p.recordIn (.of d)).run .empty =
    whole (Draft.empty.delete p.word.start p.word.stop) ((p.draft d).map fun after => ((), after)) := by
  obtain ⟨n, found⟩ : ∃ n, d.outline.nodes[d.outline.context p.word.start p.column]? = some n :=
    ⟨_, List.getElem?_eq_getElem (Outline.contextFrom_lt (Nat.succ_pos _))⟩
  exact records_grow (d := d) (p := p) found (Draft.empty.delete p.word.start p.word.stop)

theorem run_commit (p : PathInsertion) (d : Document) : p.commit.run (.of d) =
    whole (.of d) (((Change.path p).apply d).map fun result => (result.2, .of result.1)) := by
  show EStateM.run (match (p.recordIn (.of d)).run .empty with
    | .ok _ draft => draft.commit
    | .error fault _ => throw fault) (Buffer.of d) = _
  rw [run_recordIn, Change.apply]
  cases p.draft d with
  | error e => rfl
  | ok draft =>
    show draft.commit.run (.of d) = whole (.of d) ((draft.apply d).map _)
    rw [Draft.run_commit, Draft.apply]
    cases draft.preview d <;> rfl

end PathInsertion

/-- Whatever document an outline was read from, calls at its nodes are either recorded or refused, and a refused one
leaves the draft as it was. Nothing is looked up out of bounds, neither then nor in a preview. In the same way a path is
put into a buffer as a whole, or else the buffer keeps its text and its table of lines. -/
theorem Outline.Call.record_whole (o : Outline) (doc : Document) :
    (∀ (calls : List o.Call) (call : o.Call), (call.record (.of doc)).run (recorded (.of doc) calls) =
      match call.draft doc (recorded (.of doc) calls) with
      | .ok after => .ok () after
      | .error e => .error (.refused e) (recorded (.of doc) calls)) ∧
    (∀ calls : List o.Call, recorded (.of doc) calls = accepted doc calls ∧
      (recorded (.of doc) calls).previewIn (.of doc) = lift ((accepted doc calls).preview doc)) ∧
    ∀ p : PathInsertion, p.commit.run (.of doc) =
      match (Change.path p).apply doc with
      | .ok (after, selection) => .ok selection (.of after)
      | .error e => .error (.refused e) (.of doc) := by
  refine ⟨fun calls call => ?_, fun calls => ⟨recorded_eq calls, ?_⟩, fun p => ?_⟩
  · rw [call.records]
    cases call.draft doc (recorded (.of doc) calls) <;> rfl
  · rw [recorded_eq, Draft.previewIn_of]
  · rw [p.run_commit]
    cases (Change.path p).apply doc <;> rfl

end Offside
