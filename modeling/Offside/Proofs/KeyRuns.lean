import Offside.Document.Indent
import Offside.Proofs.Grafts
import Offside.Proofs.Paths

/-! Keys of a path that are put into an outline, one key per line and each a step right of the one before it, with
the lines of a value behind them. The path resolves through them, and the value stays below the last one. -/
namespace Offside

/-- The items of the keys of a path, the first of them at `column`. -/
def KeyRun (column : Nat) : KeyPath → List Item → Prop
  | [], run => run = []
  | key :: keys, run => ∃ colon start stop rest,
      run = ⟨.key column key colon, start, stop⟩ :: rest ∧ KeyRun (column + indentStep) keys rest

namespace KeyRun

variable {column : Nat} {path : KeyPath} {run : List Item}

theorem length (h : KeyRun column path run) : run.length = path.length := by
  induction path generalizing column run with
  | nil => rw [h]; rfl
  | cons key keys ih =>
    obtain ⟨colon, start, stop, rest, rfl, later⟩ := h
    simp [ih later]

theorem getElem? (h : KeyRun column path run) {t : Nat} {key : Text} (found : path[t]? = some key) :
    ∃ item colon, run[t]? = some item ∧ item.kind = .key (column + indentStep * t) key colon := by
  induction path generalizing column run t with
  | nil => simp at found
  | cons first keys ih =>
    obtain ⟨colon, start, stop, rest, rfl, later⟩ := h
    cases t with
    | zero =>
      obtain rfl := Option.some.inj found
      exact ⟨_, colon, rfl, rfl⟩
    | succ t =>
      obtain ⟨item, colon, at', kind⟩ := ih later found
      refine ⟨item, colon, at', ?_⟩
      rw [kind, Nat.mul_succ, Nat.add_right_comm, Nat.add_assoc]

theorem column_le (h : KeyRun column path run) {item : Item} (member : item ∈ run) {c : Nat}
    (stands : item.kind.column? = some c) : column ≤ c := by
  obtain ⟨t, found⟩ := List.mem_iff_getElem?.mp member
  have bound := (List.getElem?_eq_some_iff.mp found).1
  rw [h.length] at bound
  obtain ⟨item', colon, at', kind⟩ := h.getElem? (List.getElem?_eq_getElem bound)
  obtain rfl := Option.some.inj (found.symm.trans at')
  obtain rfl : column + indentStep * t = c := by simpa [kind, Kind.column?] using stands
  exact Nat.le_add_right _ _

/-- The first key goes to the container that its column leaves open, and each of the others to the one before. -/
theorem nest_run (h : KeyRun column path run) (opened : List Frame) (next : Nat) (rest : List Item)
    {t : Nat} {item : Item} (found : run[t]? = some item) :
    (nest opened next (run ++ rest))[t]? =
      some ⟨item, some (if t = 0 then enclosing (closeTo column opened) else next + t - 1)⟩ := by
  induction path generalizing column run opened next t with
  | nil => simp [show run = [] from h] at found
  | cons key keys ih =>
    obtain ⟨colon, start, stop, later, rfl, tail⟩ := h
    rw [List.cons_append, nest_cons]
    cases t with
    | zero =>
      obtain rfl := Option.some.inj found
      rfl
    | succ t =>
      have frames : openedBy opened next ⟨.key column key colon, start, stop⟩ =
          ⟨next, column⟩ :: closeTo column opened := rfl
      -- The key just opened stands left of the next one, which therefore closes nothing.
      have open' : closeTo (column + indentStep) (⟨next, column⟩ :: closeTo column opened) =
          ⟨next, column⟩ :: closeTo column opened := by
        have left : ¬column + indentStep ≤ column := Nat.not_le.mpr (Nat.lt_add_of_pos_right Nat.two_pos)
        exact List.dropWhile_cons_of_neg (by simpa using left)
      have innermost : enclosing (⟨next, column⟩ :: closeTo column opened) = next := rfl
      rw [List.getElem?_cons_succ, frames, ih tail _ _ found, open', innermost, if_neg (Nat.succ_ne_zero t)]
      congr 3
      split
      · subst t; rfl
      · omega

end KeyRun

namespace Outline

variable {above run tail below : List Item} {column : Nat} {path : KeyPath}

theorem getElem?_run (above tail below : List Item) (h : KeyRun column path run) {t : Nat} {key : Text} (found : path[t]? = some key) :
    ∃ n, (ofItems (above ++ (run ++ tail) ++ below)).nodes[above.length + 1 + t]? = some n ∧
      n.kind.name? = some key ∧ n.isContainer = true ∧ n.column? = some (column + indentStep * t) ∧
      n.parent = some (if t = 0 then enclosing (closeTo column (openedAfter [] 1 above)) else above.length + t) := by
  obtain ⟨item, colon, at', kind⟩ := h.getElem? found
  have node := h.nest_run (openedAfter [] 1 above) (above.length + 1) (tail ++ below) at'
  refine ⟨⟨item, some _⟩, ?_, by rw [kind]; rfl, by rw [Node.isContainer, kind]; rfl, by rw [Node.column?, kind]; rfl,
    rfl⟩
  rw [List.append_assoc, List.append_assoc, nodes_ofItems_append,
    List.getElem?_append_right (by rw [length_ofItems]; omega), length_ofItems, Nat.add_sub_cancel_left, node]
  congr 3
  split <;> omega

/-- A path that ended at the container of the run resolves through it, whatever stood behind. -/
theorem follow_graft {below' : List Item} {i p : Nat} {whole : KeyPath} (h : KeyRun column path run)
    (nonempty : path ≠ []) (followed : (ofItems (above ++ below')).follow i whole = (p, path))
    (early : p ≤ above.length)
    (container : enclosing (closeTo column (openedAfter [] 1 above)) = p) :
    (ofItems (above ++ (run ++ tail) ++ below)).follow i whole = (above.length + path.length, []) := by
  have same (k : Nat) (bound : k ≤ above.length) :
      (ofItems (above ++ (run ++ tail) ++ below)).nodes[k]? = (ofItems (above ++ below')).nodes[k]? := by
    rw [List.append_assoc, getElem?_graft_of_lt (by omega), getElem?_graft_of_lt (by omega)]
  rw [follow_congr (fun k bound => same k (Nat.le_trans bound early)) followed]
  cases path with
  | nil => exact absurd rfl nonempty
  | cons key keys =>
    have absent := childNamed?_eq_none_iff.mp ((follow_missing followed).2 key keys rfl)
    obtain ⟨n, found, name, -, -, parent⟩ := getElem?_run above tail below h
      (show (key :: keys)[0]? = some key from rfl)
    have child : (ofItems (above ++ (run ++ tail) ++ below)).childNamed? p key = some (above.length + 1) := by
      refine childNamed?_eq_some_iff.mpr ⟨⟨n, found, by omega, ?_, name⟩, fun k x less other => ?_⟩
      · rw [parent, if_pos rfl, container]
      · exact absent k x ⟨by rw [← same k (by omega), other.found], other.above, other.parent, other.name⟩
    rw [follow_cons, child]
    dsimp only
    rw [follow_of_run fun t key' at' => ?_, List.length_cons, Nat.add_right_comm, Nat.add_assoc]
    obtain ⟨n, found, name, -, -, parent⟩ := getElem?_run above tail below h
      (show (key :: keys)[t + 1]? = some key' from at')
    exact ⟨n, by rw [← found]; congr 1; omega, by rw [parent, if_neg (by omega)]; congr 1; omega, name⟩

theorem getElem?_tail (above below : List Item) (h : KeyRun column path run) {u : Nat} (inside : u < tail.length) :
    (above ++ (run ++ tail) ++ below)[above.length + path.length + u]? = some tail[u] := by
  have length := h.length
  rw [List.append_assoc, List.getElem?_append_right (by omega), List.append_assoc,
    List.getElem?_append_right (by omega), List.getElem?_append_left (by omega)]
  exact List.getElem?_eq_some_iff.mpr ⟨by omega, by congr 1; omega⟩

theorem openAt_run (h : KeyRun column path run) (nonempty : path ≠ [])
    (proper : Rootless (above ++ (run ++ tail) ++ below))
    (right : StandRight (column + indentStep * (path.length - 1)) tail) {u : Nat} (inside : u ≤ tail.length) :
    ∃ last : Node, last.column? = some (column + indentStep * (path.length - 1)) ∧
      (ofItems (above ++ (run ++ tail) ++ below)).OpenAt (above.length + path.length + u + 1)
        (above.length + path.length) last := by
  have positive := List.length_pos_iff.mpr nonempty
  obtain ⟨last, atLast, -, container, column', -⟩ :=
    getElem?_run above tail below h
      (List.getElem?_eq_getElem (show path.length - 1 < path.length by omega))
  have index : above.length + 1 + (path.length - 1) = above.length + path.length := by omega
  rw [index] at atLast
  refine ⟨last, column', openAt_of_standRight proper atLast container column' (Nat.le_add_right _ _) ?_⟩
  have length := h.length
  have run : ((above ++ (run ++ tail) ++ below).take (above.length + path.length + u)).drop
      (above.length + path.length) = tail.take u := by
    rw [← List.append_assoc above, ← length, ← List.length_append, List.append_assoc, List.take_length_add_append,
      List.drop_left, List.take_append_of_le_length inside]
  rw [run]
  exact fun item member => right item (List.mem_of_mem_take member)

theorem below_run (h : KeyRun column path run) (nonempty : path ≠ [])
    (proper : Rootless (above ++ (run ++ tail) ++ below))
    (right : StandRight (column + indentStep * (path.length - 1)) tail) {u c : Nat} {n : Node}
    (inside : u < tail.length)
    (found : (ofItems (above ++ (run ++ tail) ++ below)).nodes[above.length + path.length + u + 1]? = some n)
    (stands : n.column? = some c) :
    (ofItems (above ++ (run ++ tail) ++ below)).Below (above.length + path.length)
      (above.length + path.length + u + 1) := by
  -- The container of a node of the tail is the last key or a node of the tail before it.
  induction u using Nat.strong_induction_on generalizing n c with
  | _ u ih =>
    obtain ⟨last, column', opened⟩ := openAt_run h nonempty proper right (Nat.le_of_lt inside)
    have node := found
    rw [getElem?_ofItems_succ, getElem?_tail _ _ h inside, Option.map_some] at node
    obtain rfl := (Option.some.inj node).symm
    have latest := latest_of_column proper (above.length + path.length + u)
      (show tail[u].kind.column? = some c from stands) none
    generalize enclosingOf _ tail[u] = p at latest found node
    have holds : last.holds ⟨tail[u], none⟩ = true :=
      (Node.holds_of_column? (x := ⟨tail[u], none⟩) column' stands).mpr (right _ (List.getElem_mem _) c stands)
    rcases latest with ⟨⟨x, accepted, -⟩, greatest⟩ | ⟨-, none⟩
    · rcases Nat.eq_or_lt_of_le (greatest _ ⟨last, opened, holds⟩) with eq | more
      · exact .child found (by rw [eq])
      · obtain ⟨v, eq⟩ := Nat.exists_eq_add_of_lt more
        obtain ⟨c', stands'⟩ := accepted.column?
        have less := accepted.above
        refine .deeper found rfl ?_
        rw [eq]
        exact ih v (by omega) (by omega) (by rw [← eq]; exact accepted.found) stands'
    · exact absurd ⟨last, opened, holds⟩ (none _)

/-- `new` is `old` with the keys `missing` grown below node `base`, the first of them at `column` and each below the
one before, and with whatever else was put in below the last of them. -/
structure Grown (old new : Outline) (base : Nat) (missing : KeyPath) (column offset length first count : Nat) :
    Prop where
  keeps : old.Keeps new offset length first count
  early : base < first
  created : ∀ t key, missing[t]? = some key → ∃ x, new.nodes[first + t]? = some x ∧ x.kind.name? = some key ∧
    x.isContainer = true ∧ x.column? = some (column + indentStep * t) ∧
    x.parent = some (if t = 0 then base else first + t - 1)
  nested : ∀ j x, first + missing.length ≤ j → j < first + count → new.nodes[j]? = some x → x.isGap = false →
    new.Below (first + missing.length - 1) j

theorem Grown.refl (o : Outline) (base column offset : Nat) : o.Grown o base [] column offset 0 (base + 1) 0 where
  keeps := o.keeps_refl offset (base + 1)
  early := Nat.lt_succ_self base
  created := by simp
  nested j x from' upTo := by
    simp only [List.length_nil] at from'
    omega

theorem grown_graft {old : Outline} {base offset length : Nat} (h : KeyRun column path run) (nonempty : path ≠ [])
    (proper : Rootless (above ++ (run ++ tail) ++ below))
    (right : StandRight (column + indentStep * (path.length - 1)) tail) (early : base ≤ above.length)
    (container : enclosing (closeTo column (openedAfter [] 1 above)) = base)
    (keeps : old.Keeps (ofItems (above ++ (run ++ tail) ++ below)) offset length (above.length + 1)
      (run ++ tail).length) :
    old.Grown (ofItems (above ++ (run ++ tail) ++ below)) base path column offset length (above.length + 1)
      (run ++ tail).length where
  keeps := keeps
  early := Nat.lt_succ_of_le early
  created t key at' := by
    obtain ⟨n, found, name, opens, stands, parent⟩ :=
      getElem?_run above tail below h at'
    refine ⟨n, found, name, opens, stands, ?_⟩
    rw [parent, container]
    congr 2
    omega
  nested j x from' upTo found visible := by
    obtain ⟨u, rfl⟩ := Nat.exists_eq_add_of_le from'
    rw [List.length_append, h.length] at upTo
    have inside : u < tail.length := by omega
    have place : above.length + 1 + path.length + u = above.length + path.length + u + 1 := by omega
    rw [place] at found ⊢
    have node := found
    rw [getElem?_ofItems_succ, getElem?_tail _ _ h inside, Option.map_some] at node
    obtain rfl := (Option.some.inj node).symm
    obtain ⟨c, stands⟩ := Kind.column?_of_isGap
      (proper _ (List.mem_of_getElem? (getElem?_tail above below h inside))) visible
    rw [Nat.add_right_comm, Nat.add_sub_cancel]
    exact below_run h nonempty proper right inside found stands

end Outline
end Offside
