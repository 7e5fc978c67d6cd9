import Offside.Proofs.Frames
import Offside.Proofs.Lines

/-! The items of a line stand on it from left to right, and only its content and its place decide what they are. -/
namespace Offside

open Text Character

/-- The item at a place that is `k` bytes further on. -/
def Kind.shift (k : Nat) : Kind → Kind
  | .key column name colon => .key column name (colon + k)
  | kind => kind

def Item.shift (k : Nat) (item : Item) : Item := ⟨item.kind.shift k, item.start + k, item.stop + k⟩

@[simp] theorem Kind.column?_shift (k : Nat) (kind : Kind) : (kind.shift k).column? = kind.column? := by
  cases kind <;> rfl

@[simp] theorem Kind.isContainer_shift (k : Nat) (kind : Kind) :
    (kind.shift k).isContainer = kind.isContainer := by
  cases kind <;> rfl

@[simp] theorem Kind.isGap_shift (k : Nat) (kind : Kind) : (kind.shift k).isGap = kind.isGap := by
  cases kind <;> rfl

theorem Kind.isGap_of_column? {kind : Kind} {column : Nat} (h : kind.column? = some column) :
    kind.isGap = false := by
  cases kind <;> simp_all [column?, isGap]

theorem Kind.isGap_of_isContainer {kind : Kind} (h : kind.isContainer = true) : kind.isGap = false := by
  cases kind <;> simp_all [isContainer, isGap]

theorem Kind.exists_key_of_name? {kind : Kind} {name : Text} (h : kind.name? = some name) :
    ∃ column colon, kind = .key column name colon := by
  cases kind <;> simp_all [name?]

theorem Kind.exists_key_of_colon? {kind : Kind} {colon : Nat} (h : kind.colon? = some colon) :
    ∃ column name, kind = .key column name colon := by
  cases kind <;> simp_all [colon?]

theorem Kind.isGap_of_name? {kind : Kind} {name : Text} (h : kind.name? = some name) : kind.isGap = false := by
  cases kind <;> simp_all [name?, isGap]

namespace Text

theorem length_le_bytes (t : Text) : t.length ≤ bytes t := by
  induction t with
  | nil => exact Nat.le_refl 0
  | cons c t ih =>
    have := c.utf8Size_pos
    simp only [List.length_cons, bytes_cons]
    omega

theorem indentation_space (t : Text) : indentation (' ' :: t) = (indentation t).map (· + 1) := by
  simp only [indentation, List.dropWhile_cons, List.takeWhile_cons, beq_self_eq_true, ↓reduceIte]
  split <;> simp

theorem indentation_cons {c : Char} {t : Text} (h : c ≠ ' ') :
    indentation (c :: t) = if isWhite c && isBlank t || c == '#' then none else some 0 := by
  simp [indentation, h, isBlank]

theorem indentation_spaces (n : Nat) (t : Text) :
    indentation (spaces n ++ t) = (indentation t).map (· + n) := by
  induction n with
  | zero => simp [spaces]
  | succ n ih =>
    rw [spaces, List.replicate_succ, List.cons_append, indentation_space, ← spaces, ih, Option.map_map]
    rfl

theorem isBlank_of_indentation {t : Text} {column : Nat} (h : indentation t = some column) : isBlank t = false := by
  by_contra blank
  have all : ∀ c ∈ t, isWhite c = true := by simpa [isBlank] using blank
  have : isBlank (t.dropWhile (· == ' ')) = true := by
    rw [isBlank, List.all_eq_true]
    exact fun c member => all c ((List.dropWhile_sublist _).mem member)
  simp [indentation, this] at h

theorem indentation_of_isBlank {t : Text} (h : isBlank t = true) : indentation t = none := by
  cases found : indentation t with
  | none => rfl
  | some column => exact absurd (h.symm.trans (isBlank_of_indentation found)) Bool.noConfusion

/-- A blank line stays blank, and a comment a comment, when a carriage return joins the line or leaves it. -/
theorem indentation_return (t : Text) : indentation (t ++ ['\r']) = indentation t := by
  induction t with
  | nil => decide
  | cons c t ih =>
    by_cases space : c = ' '
    · subst space
      rw [List.cons_append, indentation_space, indentation_space, ih]
    · have blank : isBlank (t ++ ['\r']) = isBlank t := by simp [isBlank, show isWhite '\r' = true by decide]
      rw [List.cons_append, indentation_cons space, indentation_cons space, blank]

theorem indentation_spaces_append {column : Nat} {content : Text} (written : isBlank content = false)
    (space : content.head? ≠ some ' ') (comment : content.head? ≠ some '#') :
    indentation (spaces column ++ content) = some column := by
  cases content with
  | nil => simp [isBlank] at written
  | cons c content =>
    have space : c ≠ ' ' := by simpa using space
    have comment : c ≠ '#' := by simpa using comment
    have written : (isWhite c && isBlank content) = false := written
    simp [indentation_spaces, indentation_cons space, comment, written]

theorem exists_of_indentation {t : Text} {column : Nat} (h : indentation t = some column) :
    ∃ c rest, t = spaces column ++ c :: rest ∧ c ≠ ' ' := by
  induction t generalizing column with
  | nil => simp [indentation, isBlank] at h
  | cons d t ih =>
    by_cases space : d = ' '
    · subst space
      rw [indentation_space] at h
      obtain ⟨inner, found, rfl⟩ := Option.map_eq_some_iff.mp h
      obtain ⟨c, rest, rfl, other⟩ := ih found
      exact ⟨c, rest, by simp [spaces, List.replicate_succ], other⟩
    · rw [indentation_cons space] at h
      split at h
      · contradiction
      · obtain rfl := Option.some.inj h
        exact ⟨d, t, rfl, space⟩

end Text

theorem beforeColon?_eq_some {depth : Nat} {last : Char} {t part : Text}
    (h : beforeColon? depth last t = some part) :
    ∃ rest, t = part ++ ':' :: rest ∧ separates rest = true := by
  induction t generalizing depth last part with
  | nil => simp [beforeColon?] at h
  | cons c t ih =>
    rw [beforeColon?] at h
    split at h
    · contradiction
    · split at h
      next colon =>
        obtain rfl := Option.some.inj h
        exact ⟨t, by simp [colon.1], colon.2.2⟩
      next =>
        obtain ⟨part, found, rfl⟩ := Option.map_eq_some_iff.mp h
        obtain ⟨rest, rfl, separated⟩ := ih found
        exact ⟨rest, rfl, separated⟩

theorem keyPart?_eq_some {content part : Text} (h : keyPart? content = some part) :
    ∃ rest, content = part ++ ':' :: rest ∧ separates rest = true ∧ isBlank part = false := by
  obtain ⟨found, written⟩ := Option.filter_eq_some_iff.mp h
  have written : isBlank part = false := by simpa using written
  cases content with
  | nil => simp at found
  | cons quote rest =>
    simp only at found
    split at found
    · split at found
      next => contradiction
      next close rest' dropped =>
        obtain ⟨inner, inside, rfl⟩ := Option.map_eq_some_iff.mp found
        obtain ⟨more, rfl, separated⟩ := beforeColon?_eq_some inside
        refine ⟨more, ?_, separated, written⟩
        have whole := List.takeWhile_append_dropWhile (p := fun c => decide (c ≠ quote)) (l := rest)
        rw [dropped] at whole
        conv_lhs => rw [← whole]
        simp
    · obtain ⟨more, eq, separated⟩ := beforeColon?_eq_some found
      exact ⟨more, eq, separated, written⟩

theorem keyPart?_of_notMem {content : Text} (h : ':' ∉ content) : keyPart? content = none := by
  cases found : keyPart? content with
  | none => rfl
  | some part =>
    obtain ⟨rest, rfl, -⟩ := keyPart?_eq_some found
    simp at h

namespace Line

/-- A position `column` bytes into the line, before what is left of it. -/
def Cuts (l : Line) (column : Nat) (t : Text) : Prop := ∃ a, l.content = a ++ t ∧ bytes a = column

theorem Cuts.length {l : Line} {column : Nat} {t : Text} (h : l.Cuts column t) : column + bytes t = l.length := by
  obtain ⟨a, content, rfl⟩ := h
  rw [Line.length, content, bytes_append]

theorem Cuts.append {l : Line} {column : Nat} {a b : Text} (h : l.Cuts column (a ++ b)) :
    l.Cuts (column + bytes a) b := by
  obtain ⟨before, content, rfl⟩ := h
  exact ⟨before ++ a, by rw [content, List.append_assoc], bytes_append _ _⟩

/-- An item stands at a column of its line, with content behind it. -/
structure Placed (l : Line) (column : Nat) (item : Item) : Prop where
  stands : item.kind.column? = some column
  start : item.start = l.start + column
  stop : item.stop = l.stop
  cuts : ∃ t, t ≠ [] ∧ l.Cuts column t
  colon : ∀ colon, item.kind.colon? = some colon → ∃ c t, colon = l.start + c ∧ l.Cuts c (':' :: t)

theorem Placed.written {l : Line} {column : Nat} {item : Item} (h : Placed l column item) : item.start < l.stop := by
  obtain ⟨t, nonempty, cuts⟩ := h.cuts
  have := length_le_bytes t
  have := List.length_pos_iff.mpr nonempty
  have := cuts.length
  rw [h.start, Line.stop]
  omega

/-- The items of a written line, the first of them at `column` and each further right than those before. -/
structure Opens (l : Line) (column : Nat) (items : List Item) : Prop where
  first : items.head?.bind (·.kind.column?) = some column
  placed : ∀ item ∈ items, ∃ c, column ≤ c ∧ Placed l c item
  rising : items.Pairwise fun a b => ∀ c, a.kind.column? = some c → StandRight c [b]

theorem Opens.single {l : Line} {column : Nat} {item : Item} (h : Placed l column item) :
    Opens l column [item] where
  first := by simp [h.stands]
  placed other member := ⟨column, Nat.le_refl _, by rwa [List.mem_singleton.mp member]⟩
  rising := List.pairwise_singleton _ _

theorem Opens.cons {l : Line} {column right : Nat} {item : Item} {items : List Item}
    (h : Placed l column item) (further : column < right) (rest : Opens l right items) :
    Opens l column (item :: items) where
  first := by simp [h.stands]
  placed other member := by
    rcases List.mem_cons.mp member with rfl | member
    · exact ⟨column, Nat.le_refl _, h⟩
    · obtain ⟨c, le, placed⟩ := rest.placed other member
      exact ⟨c, by omega, placed⟩
  rising := by
    refine List.pairwise_cons.mpr ⟨fun other member c stands => ?_, rest.rising⟩
    obtain rfl : column = c := Option.some.inj (h.stands.symm.trans stands)
    obtain ⟨c, le, placed⟩ := rest.placed other member
    simp [StandRight, placed.stands]
    omega

theorem placed_leaf {l : Line} {column : Nat} {content : Text} (cuts : l.Cuts column content)
    (h : content ≠ []) : Placed l column (l.leaf column content) := by
  unfold leaf
  split
  next part found =>
    obtain ⟨rest, rfl, -⟩ := keyPart?_eq_some found
    refine ⟨rfl, rfl, rfl, ⟨_, h, cuts⟩, fun colon eq => ⟨column + bytes part, rest, ?_, cuts.append⟩⟩
    obtain rfl := Option.some.inj eq
    exact Nat.add_assoc _ _ _
  next => exact ⟨rfl, rfl, rfl, ⟨_, h, cuts⟩, by simp [item, Kind.colon?]⟩

theorem opens_itemsFrom {l : Line} {column inner : Nat} {t : Text} (cuts : l.Cuts column t)
    (h : indentation t = some inner) : Opens l (column + inner) (l.itemsFrom column t) := by
  induction t generalizing column inner with
  | nil => simp [indentation, isBlank] at h
  | cons c t ih =>
    have step (size : c.utf8Size = 1) : l.Cuts (column + 1) t := by
      rw [← size]
      exact (show l.Cuts column ([c] ++ t) from cuts).append
    by_cases space : c = ' '
    · subst space
      rw [indentation_space] at h
      obtain ⟨deeper, found, rfl⟩ := Option.map_eq_some_iff.mp h
      have rest : Opens l (column + 1 + deeper) (l.itemsFrom (column + 1) t) := ih (step rfl) found
      rw [itemsFrom]
      simpa [Nat.add_assoc, Nat.add_comm, Nat.add_left_comm] using rest
    · obtain rfl : inner = 0 := by
        rw [indentation_cons space] at h
        split at h <;> simp_all
      have leaf := placed_leaf cuts (List.cons_ne_nil c t)
      by_cases dash : c = '-'
      · subst dash
        rw [itemsFrom]
        split
        next opener =>
          have entry : Placed l column (l.item (.entry column) column) :=
            ⟨rfl, rfl, rfl, ⟨_, List.cons_ne_nil _ _, cuts⟩, by simp [item, Kind.colon?]⟩
          cases found : indentation t with
          | none => simpa using Opens.single entry
          | some deeper =>
            have rest : Opens l (column + 1 + deeper) (l.itemsFrom (column + 1) t) := ih (step rfl) found
            simpa using Opens.cons entry (by omega) rest
        next => exact .single leaf
      · rw [itemsFrom]
        · exact .single leaf
        · simpa using space
        · simpa using dash

theorem items_of_indentation {l : Line} {column : Nat} (h : indentation l.content = some column) :
    l.items = if l.content[column]? = some '\t' then [l.item (.raw column) column] else l.itemsFrom 0 l.content := by
  rw [items, h]

theorem opens_items {l : Line} {column : Nat} (h : indentation l.content = some column) :
    Opens l column l.items := by
  rw [items_of_indentation h]
  split
  next =>
    obtain ⟨c, rest, content, -⟩ := exists_of_indentation h
    refine .single ⟨rfl, rfl, rfl, ⟨c :: rest, List.cons_ne_nil _ _, spaces column, content, bytes_spaces _⟩, ?_⟩
    simp [item, Kind.colon?]
  next =>
    have whole : Opens l (0 + column) (l.itemsFrom 0 l.content) := opens_itemsFrom ⟨[], rfl, rfl⟩ h
    simpa using whole

theorem items_gap {l : Line} (h : indentation l.content = none) :
    ∃ column, column ≤ l.length ∧ l.items = [l.item .gap column] := by
  refine ⟨if isBlank l.content then 0 else (l.content.takeWhile (· == ' ')).length, ?_, by rw [items, h]⟩
  have := (List.takeWhile_prefix (· == ' ') (l := l.content)).length_le
  have := length_le_bytes l.content
  split
  · exact Nat.zero_le _
  · simp only [length]; omega

theorem items_ne_nil (l : Line) : l.items ≠ [] := by
  cases h : indentation l.content with
  | none =>
    obtain ⟨column, -, eq⟩ := items_gap h
    simp [eq]
  | some column =>
    have := (opens_items h).first
    rintro empty
    simp [empty] at this

theorem mem_items_cases {l : Line} {item : Item} (member : item ∈ l.items) :
    (∃ column, column ≤ l.length ∧ item = l.item .gap column) ∨ ∃ column, Placed l column item := by
  cases h : indentation l.content with
  | none =>
    obtain ⟨column, bound, eq⟩ := items_gap h
    exact .inl ⟨column, bound, by simpa [eq] using member⟩
  | some column =>
    obtain ⟨c, -, placed⟩ := (opens_items h).placed item member
    exact .inr ⟨c, placed⟩

theorem placed_of_isGap {l : Line} {item : Item} (member : item ∈ l.items) (visible : item.kind.isGap = false) :
    ∃ column, Placed l column item := by
  rcases mem_items_cases member with ⟨column, -, rfl⟩ | placed
  · contradiction
  · exact placed

theorem bounds_of_mem_items {l : Line} {item : Item} (member : item ∈ l.items) :
    l.start ≤ item.start ∧ item.start ≤ l.stop ∧ item.stop = l.stop := by
  rcases mem_items_cases member with ⟨column, bound, rfl⟩ | ⟨column, placed⟩
  · refine ⟨Nat.le_add_right _ _, ?_, rfl⟩
    simp only [Line.item, stop]; omega
  · have := placed.start
    have := placed.written
    exact ⟨by omega, by omega, placed.stop⟩

theorem start_lt_stop {l : Line} {item : Item} (member : item ∈ l.items) (visible : item.kind.isGap = false) :
    item.start < item.stop := by
  obtain ⟨column, placed⟩ := placed_of_isGap member visible
  rw [placed.stop]
  exact placed.written

theorem colon_bounds {l : Line} {item : Item} {colon : Nat} (member : item ∈ l.items)
    (at' : item.kind.colon? = some colon) : l.start ≤ colon ∧ colon < l.stop := by
  rcases mem_items_cases member with ⟨column, -, rfl⟩ | ⟨column, placed⟩
  · contradiction
  · obtain ⟨c, t, rfl, cuts⟩ := placed.colon colon at'
    have := cuts.length
    simp only [bytes_cons, utf8Size_colon] at this
    simp only [stop]
    omega

theorem itemsFrom_at (start : Nat) (content : Text) (ending : Option LineBreak) (column : Nat) (t : Text) :
    (Line.mk start content ending).itemsFrom column t =
      ((Line.mk 0 content none).itemsFrom column t).map (Item.shift start) := by
  have item (kind : Kind) (column : Nat) (h : kind.colon? = none) : (Line.mk start content ending).item kind column =
      ((Line.mk 0 content none).item kind column).shift start := by
    cases kind <;> simp_all [Line.item, Item.shift, Kind.shift, Kind.colon?, stop, length, Nat.add_comm]
  have leaf (column : Nat) (t : Text) : (Line.mk start content ending).leaf column t =
      ((Line.mk 0 content none).leaf column t).shift start := by
    unfold Line.leaf
    split
    · simp only [Line.item, Item.shift, Kind.shift, stop, length, Item.mk.injEq, Kind.key.injEq]
      refine ⟨⟨trivial, trivial, ?_⟩, ?_, ?_⟩ <;> omega
    · exact item _ _ rfl
  induction t generalizing column with
  | nil => simp [itemsFrom, leaf]
  | cons c t ih =>
    by_cases space : c = ' '
    · subst space
      rw [itemsFrom, itemsFrom, ih]
    · by_cases dash : c = '-'
      · subst dash
        rw [itemsFrom, itemsFrom]
        split
        · rw [List.map_cons, ← item _ _ rfl]
          split <;> simp [ih]
        · simp [leaf]
      · rw [itemsFrom, itemsFrom]
        · simp [leaf]
        all_goals simp [space, dash]

/-- The items of a line depend on its content, and move along with it. -/
theorem items_at (start : Nat) (content : Text) (ending : Option LineBreak) :
    (Line.mk start content ending).items = (Line.mk 0 content none).items.map (Item.shift start) := by
  unfold items
  cases indentation content with
  | none => simp [item, Item.shift, Kind.shift, stop, length, Nat.add_comm]
  | some column =>
    simp only [itemsFrom_at start content ending]
    split <;> simp [item, Item.shift, Kind.shift, stop, length, Nat.add_comm]

theorem Item.shift_shift (a b : Nat) (item : Item) : (item.shift a).shift b = item.shift (a + b) := by
  obtain ⟨kind, start, stop⟩ := item
  cases kind <;> simp [Item.shift, Kind.shift, Nat.add_assoc]

theorem items_shift (k : Nat) (l : Line) : (l.shift k).items = l.items.map (Item.shift k) := by
  obtain ⟨start, content, ending⟩ := l
  rw [shift, items_at, items_at start, List.map_map]
  congr 1
  funext item
  simp [Item.shift_shift]

theorem flatMap_items_shift (k : Nat) (lines : List Line) :
    (lines.map (shift k)).flatMap items = (lines.flatMap items).map (Item.shift k) := by
  rw [List.flatMap_map, List.map_flatMap]
  exact congrArg (List.flatMap · lines) (funext fun l => items_shift k l)

end Line
end Offside
