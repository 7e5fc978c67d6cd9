import Mathlib.Data.List.Basic
import Mathlib.Data.Option.Basic
import Mathlib.Order.MinMax
import Offside.Proofs.Grafts
import Offside.Proofs.Proposals

/-! Relocations. If the places in an outline are moved by a map that keeps their order, the searches in it find the same
nodes as before, moved: its contexts, paths and blocks stay what they were, and so do the proposals for a caret. -/
namespace Offside

variable {f : Nat → Nat}

def Kind.move (f : Nat → Nat) : Kind → Kind
  | .key column name colon => .key column name (f colon)
  | kind => kind

def Item.move (f : Nat → Nat) (item : Item) : Item := ⟨item.kind.move f, f item.start, f item.stop⟩

/-- The node at other places. Its container has the number that it had. -/
def Node.move (f : Nat → Nat) (n : Node) : Node := { n with toItem := n.toItem.move f }

def Outline.move (f : Nat → Nat) (o : Outline) : Outline := ⟨o.nodes.map (Node.move f)⟩

@[simp] theorem Kind.column?_move (f : Nat → Nat) (kind : Kind) : (kind.move f).column? = kind.column? := by
  cases kind <;> rfl

@[simp] theorem Kind.name?_move (f : Nat → Nat) (kind : Kind) : (kind.move f).name? = kind.name? := by
  cases kind <;> rfl

@[simp] theorem Kind.colon?_move (f : Nat → Nat) (kind : Kind) : (kind.move f).colon? = kind.colon?.map f := by
  cases kind <;> rfl

@[simp] theorem Kind.isContainer_move (f : Nat → Nat) (kind : Kind) : (kind.move f).isContainer = kind.isContainer := by
  cases kind <;> rfl

@[simp] theorem Kind.isGap_move (f : Nat → Nat) (kind : Kind) : (kind.move f).isGap = kind.isGap := by
  cases kind <;> rfl

namespace Node

@[simp] theorem kind_move (f : Nat → Nat) (n : Node) : (n.move f).kind = n.kind.move f := rfl

@[simp] theorem start_move (f : Nat → Nat) (n : Node) : (n.move f).start = f n.start := rfl

@[simp] theorem stop_move (f : Nat → Nat) (n : Node) : (n.move f).stop = f n.stop := rfl

@[simp] theorem parent_move (f : Nat → Nat) (n : Node) : (n.move f).parent = n.parent := rfl

@[simp] theorem column?_move (f : Nat → Nat) (n : Node) : (n.move f).column? = n.column? := n.kind.column?_move f

@[simp] theorem isContainer_move (f : Nat → Nat) (n : Node) : (n.move f).isContainer = n.isContainer :=
  n.kind.isContainer_move f

@[simp] theorem isGap_move (f : Nat → Nat) (n : Node) : (n.move f).isGap = n.isGap := n.kind.isGap_move f

@[simp] theorem holds_move (f : Nat → Nat) (n m : Node) : (n.move f).holds (m.move f) = n.holds m := by
  simp [holds]

end Node

namespace Outline

@[simp] theorem getElem?_move (f : Nat → Nat) (o : Outline) (i : Nat) :
    (o.move f).nodes[i]? = o.nodes[i]?.map (Node.move f) := List.getElem?_map

theorem children_move (f : Nat → Nat) (o : Outline) (i : Nat) :
    (o.move f).children i = (o.children i).map (Prod.map (Node.move f) id) := by
  rw [children, move, List.zipIdx_map, List.filter_map]
  rfl

theorem realChildren_move (f : Nat → Nat) (o : Outline) (i : Nat) :
    (o.move f).realChildren i = (o.realChildren i).map (Prod.map (Node.move f) id) := by
  have visible : (fun p : Node × Nat => !p.1.isGap) ∘ Prod.map (Node.move f) id = fun p => !p.1.isGap := by
    funext p
    simp
  rw [realChildren, children_move, List.filter_map]
  exact congrArg (List.map _ <| List.filter · _) visible

theorem lastChildBefore?_move (order : StrictMono f) (o : Outline) (offset i : Nat) :
    (o.move f).lastChildBefore? (f offset) i =
      (o.lastChildBefore? offset i).map (Prod.map (Node.move f) id) := by
  have early : (fun p : Node × Nat => decide (p.1.start < f offset)) ∘ Prod.map (Node.move f) id =
      fun p => decide (p.1.start < offset) := by
    funext p
    simp [order.lt_iff_lt]
  rw [lastChildBefore?, realChildren_move, List.filter_map, List.getLast?_map]
  exact congrArg (fun p => ((o.realChildren i).filter p).getLast?.map _) early

theorem contextFrom_step (o : Outline) (offset column i : Nat) :
    o.contextFrom offset column i =
      match o.lastChildBefore? offset i with
      | none => i
      | some (n, j) => if n.isContainer && n.column?.any (· < column) then o.contextFrom offset column j else i := by
  rw [contextFrom]
  split
  next none => rw [none]
  next found => rw [found]

theorem contextFrom_move (order : StrictMono f) (o : Outline) (offset column i : Nat) :
    (o.move f).contextFrom (f offset) column i = o.contextFrom offset column i := by
  induction i using contextFrom.induct o offset column with
  | case1 i none => rw [contextFrom_step, contextFrom_step, lastChildBefore?_move order, none, Option.map_none]
  | case2 i n j found inside ih =>
    rw [contextFrom_step, contextFrom_step o, lastChildBefore?_move order, found]
    simpa [inside] using ih
  | case3 i n j found outside =>
    rw [contextFrom_step, contextFrom_step o, lastChildBefore?_move order, found]
    simp [outside]

theorem context_move (order : StrictMono f) (o : Outline) (offset column : Nat) :
    (o.move f).context (f offset) column = o.context offset column := contextFrom_move order o offset column 0

theorem lineage_move (f : Nat → Nat) (o : Outline) (i : Nat) :
    (o.move f).lineage i = (o.lineage i).map (Node.move f) := by
  induction i using lineage.induct o with
  | case1 i none =>
    rw [lineage, lineage, getElem?_move, none]
    rfl
  | case2 i n found root =>
    rw [lineage, lineage, getElem?_move, found]
    simp [root]
  | case3 i n found p parent above ih =>
    rw [lineage, lineage, getElem?_move, found]
    simp [parent, above, ih]
  | case4 i n found p parent outside =>
    rw [lineage, lineage, getElem?_move, found]
    simp [parent, outside]

theorem keyPath?_move (f : Nat → Nat) (o : Outline) (i : Nat) : (o.move f).keyPath? i = o.keyPath? i := by
  have names : (fun n : Node => n.kind.name?) ∘ Node.move f = fun n => n.kind.name? := by
    funext n
    simp
  rw [keyPath?, lineage_move, ← List.map_tail, List.mapM_map, names, keyPath?]

theorem keyAtColon?_move (order : StrictMono f) (o : Outline) (colon : Nat) :
    (o.move f).keyAtColon? (f colon) = o.keyAtColon? colon := by
  have same : (fun n : Node => n.kind.colon? == some (f colon)) ∘ Node.move f = fun n => n.kind.colon? == some colon := by
    funext n
    cases at' : n.kind.colon? <;> simp [at', order.injective.eq_iff]
  rw [keyAtColon?, move, List.findIdx?_map, same, keyAtColon?]

theorem block_move (f : Nat → Nat) (o : Outline) (i : Nat) :
    (o.move f).block i = (o.block i).map (Node.move f) := by
  have visible : (fun n : Node => !n.isGap) ∘ Node.move f = fun n => !n.isGap := by
    funext n
    simp
  rw [block, block, move, ← List.map_drop]
  cases o.nodes.drop i with
  | nil => rfl
  | cons n later =>
    have held : (n.move f).holds ∘ Node.move f = n.holds := by
      funext m
      simp
    simp only [List.map_cons, Node.isContainer_move]
    split
    · rw [List.filter_map, visible, List.takeWhile_map, held]
    · rfl

theorem blockEnd_move (order : StrictMono f) (start : f 0 = 0) (o : Outline) (i : Nat) :
    (o.move f).blockEnd i = f (o.blockEnd i) := by
  have fold (nodes : List Node) (stop : Nat) :
      (nodes.map (Node.move f)).foldl (fun stop n => max stop n.stop) (f stop) =
        f (nodes.foldl (fun stop n => max stop n.stop) stop) := by
    induction nodes generalizing stop with
    | nil => rfl
    | cons n nodes ih =>
      rw [List.map_cons, List.foldl_cons, List.foldl_cons, ← ih, order.monotone.map_max]
      rfl
  have own : ((o.move f).nodes[i]?.map (·.stop)).getD 0 = f ((o.nodes[i]?.map (·.stop)).getD 0) := by
    cases found : o.nodes[i]? <;> simp [found, start]
  rw [blockEnd, block_move, own, fold, blockEnd]

end Outline

/-! What is read at a caret, and what the proposals there change, at other places. -/

def CaretPlace.move (f : Nat → Nat) : CaretPlace → CaretPlace
  | .value colon => .value (f colon)
  | place => place

def Span.move (f : Nat → Nat) (s : Span) : Span := ⟨f s.start, f s.stop⟩

def CaretContext.move (f : Nat → Nat) (c : CaretContext) : CaretContext :=
  { c with place := c.place.move f, word := c.word.move f }

def Splice.move (f : Nat → Nat) (s : Splice) : Splice := { s with start := f s.start, stop := f s.stop }

def CaretHint.move (f : Nat → Nat) : CaretHint → CaretHint
  | .atOffset offset => .atOffset (f offset)
  | .afterInsertion offset => .afterInsertion (f offset)

def Draft.move (f : Nat → Nat) (d : Draft) : Draft := ⟨d.splices.map (Splice.move f), d.caret.map (CaretHint.move f)⟩

def Change.move (f : Nat → Nat) : Change → Change
  | .ready draft => .ready (draft.move f)
  | .path insertion => .path { insertion with word := insertion.word.move f }

/-- The proposal with another place to change: what it shows, what ranks it and what it puts in stay as they are. -/
def Proposal.move (f : Nat → Nat) (p : Proposal) : Proposal := { p with change := p.change.move f }

theorem Draft.delete_move (order : StrictMono f) (d : Draft) (start stop : Nat) :
    (d.delete start stop).move f = (d.move f).delete (f start) (f stop) := by
  unfold delete
  by_cases same : start = stop
  · simp [same]
  · have apart : f start ≠ f stop := fun h => same (order.injective h)
    rw [if_neg same, if_neg apart]
    simp [move, Splice.move, Splice.deletion]

theorem Draft.insert_move (f : Nat → Nat) (d : Draft) (offset : Nat) (text : Text) :
    (d.insert offset text).move f = (d.move f).insert (f offset) text := by
  obtain ⟨splices, caret⟩ := d
  match caret with
  | none => simp [insert, move, Splice.move, Splice.insertion, CaretHint.move]
  | some (.atOffset o) => simp [insert, move, Splice.move, Splice.insertion, CaretHint.move]
  | some (.afterInsertion o) => simp [insert, move, Splice.move, Splice.insertion, CaretHint.move]

theorem proposalBelow_move (f : Nat → Nat) (c : CaretContext) (project : Option Text) (path : KeyPath)
    (found : Match Property) :
    proposalBelow (c.move f) project path found = (proposalBelow c project path found).map (Proposal.move f) := by
  simp only [proposalBelow, bind, pure, Option.map_bind, Function.comp_def, Option.map_some]
  rfl

theorem keyProposals_move (order : StrictMono f) (o : Outline) (catalogue : Catalogue) (c : CaretContext)
    (project : Option Text) :
    keyProposals (o.move f) catalogue (c.move f) project =
      (keyProposals o catalogue c project).map (Proposal.move f) := by
  have same : (o.move f).keyPath? ((o.move f).context (c.move f).word.start (c.move f).column) =
      o.keyPath? (o.context c.word.start c.column) := by
    rw [Outline.keyPath?_move]
    exact congrArg o.keyPath? (o.context_move order _ _)
  cases reached : o.keyPath? (o.context c.word.start c.column) with
  | none => simp [keyProposals, same, reached]
  | some path =>
    rw [keyProposals_eq reached, keyProposals_eq (same.trans reached), List.map_filterMap]
    exact List.filterMap_congr fun found _ => proposalBelow_move f c project path found

theorem valueProposals_move (order : StrictMono f) (o : Outline) (catalogue : Catalogue) (c : CaretContext) (colon : Nat) :
    valueProposals (o.move f) catalogue (c.move f) (f colon) =
      (valueProposals o catalogue c colon).map (Proposal.move f) := by
  have reached : ((o.move f).keyAtColon? (f colon) >>= (o.move f).keyPath?) = (o.keyAtColon? colon >>= o.keyPath?) := by
    rw [Outline.keyAtColon?_move order, funext (Outline.keyPath?_move f o)]
  rw [valueProposals, valueProposals, reached]
  split
  · rfl
  next property _ =>
    rw [List.map_map]
    refine List.map_congr_left fun offered _ => ?_
    simp only [Function.comp_apply, Proposal.ofValue, Proposal.move, Change.move, Draft.insert_move, Draft.delete_move order]
    rfl

theorem Proposal.sort_move (f : Nat → Nat) (proposals : List Proposal) :
    sort (proposals.map (Proposal.move f)) = (sort proposals).map (Proposal.move f) := by
  rw [sort, sort, List.map_mergeSort]
  exact fun a _ b _ => rfl

/-- If a document has the outline of another one at moved places, and at a caret the same is read, the proposals for that
caret are the same, at moved places. -/
theorem Engine.proposals_move (order : StrictMono f) (e : Engine) {d d' : Document} {caret caret' : Nat}
    (outline : d'.outline = d.outline.move f)
    (reads : d'.caretContext? caret' = (d.caretContext? caret).map (CaretContext.move f)) :
    e.proposals d' caret' = (e.proposals d caret).map (Proposal.move f) := by
  have candidates (catalogue : Catalogue) (c : CaretContext) :
      e.candidates catalogue d' (c.move f) = (e.candidates catalogue d c).map (Proposal.move f) := by
    obtain ⟨place, word, query, column⟩ := c
    unfold Engine.candidates
    rw [outline]
    cases place with
    | key => exact keyProposals_move order d.outline catalogue _ e.project
    | value colon => exact valueProposals_move order d.outline catalogue _ colon
    | elsewhere => rfl
  unfold proposals
  rw [reads]
  cases e.catalogue with
  | none => rfl
  | some catalogue =>
    cases d.caretContext? caret with
    | none => rfl
    | some c =>
      simp only [Option.map_some]
      rw [candidates, Proposal.sort_move, List.map_take]

end Offside
