import Offside.Proofs.Items

/-! Plain keys: those that a line of their own reads back. They are named by any line that holds them before a
colon, however far it is indented and whatever value follows. -/
namespace Offside

open Text Character

/-- The document `key:` is that key and nothing else. -/
def Text.IsPlainKey (key : Text) : Prop :=
  ∃ n, (Document.mk (key ++ [':'])).outline.nodes.tail = [n] ∧ n.kind.name? = some key

instance (key : Text) : Decidable key.IsPlainKey :=
  decidable_of_iff ((Document.mk (key ++ [':'])).outline.nodes.tail.map (·.kind.name?) = [some key])
    List.map_eq_singleton_iff

theorem Text.length_trimEnd_le (t : Text) : (trimEnd t).length ≤ t.length := by
  have := (List.dropWhile_sublist isWhite (l := t.reverse)).length_le
  simpa [trimEnd] using this

theorem Text.exists_trimEnd (t : Text) : ∃ gap, t = trimEnd t ++ gap ∧ isBlank gap = true := by
  refine ⟨(t.reverse.takeWhile isWhite).reverse, ?_, List.all_eq_true.mpr fun c member => ?_⟩
  · rw [trimEnd, ← List.reverse_append, List.takeWhile_append_dropWhile, List.reverse_reverse]
  · exact List.mem_takeWhile_imp (List.mem_reverse.mp member)

theorem Text.isBlank_trimEnd (t : Text) : isBlank (trimEnd t) = isBlank t := by
  obtain ⟨gap, split, blank⟩ := exists_trimEnd t
  conv_rhs => rw [split, isBlank, List.all_append, ← isBlank, ← isBlank, blank, Bool.and_true]

theorem beforeColon?_append {depth : Nat} {last : Char} {key old rest : Text}
    (h : beforeColon? depth last (key ++ ':' :: old) = some key) (separate : separates rest = true) :
    beforeColon? depth last (key ++ ':' :: rest) = some key := by
  induction key generalizing depth last with
  | nil =>
    rw [List.nil_append, beforeColon?] at h ⊢
    split at h
    · contradiction
    next comment =>
      rw [if_neg comment]
      split at h
      next found => rw [if_pos ⟨found.1, found.2.1, separate⟩]
      next => simp at h
  | cons c key ih =>
    rw [List.cons_append, beforeColon?] at h ⊢
    have same : separates (key ++ ':' :: rest) = separates (key ++ ':' :: old) := by
      cases key <;> rfl
    split at h
    · contradiction
    next comment =>
      rw [if_neg comment, same]
      split at h
      · simp at h
      next other =>
        obtain ⟨inner, found, eq⟩ := Option.map_eq_some_iff.mp h
        obtain rfl : inner = key := (List.cons_eq_cons.mp eq).2
        rw [if_neg other, ih found]
        rfl

theorem keyPart?_append {key old rest : Text} (h : keyPart? (key ++ ':' :: old) = some key)
    (separate : separates rest = true) : keyPart? (key ++ ':' :: rest) = some key := by
  obtain ⟨found, written⟩ := Option.filter_eq_some_iff.mp h
  refine Option.filter_eq_some_iff.mpr ⟨?_, written⟩
  cases key with
  | nil => simp [isBlank] at written
  | cons quote key =>
    simp only [List.cons_append] at found ⊢
    split at found
    next quoted =>
      rw [if_pos quoted]
      split at found
      next => contradiction
      next close behind dropped =>
        -- The part that was found ends behind the closing quote, so that it holds the quote.
        obtain ⟨inner, inside, eq⟩ := Option.map_eq_some_iff.mp found
        have whole := List.takeWhile_append_dropWhile (p := fun c => decide (c ≠ quote)) (l := key ++ ':' :: old)
        have pass (c : Char) (member : c ∈ (key ++ ':' :: old).takeWhile fun c => decide (c ≠ quote)) :
            decide (c ≠ quote) = true := List.mem_takeWhile_imp (p := fun c => decide (c ≠ quote)) member
        have stops := List.head?_dropWhile_not (fun c => decide (c ≠ quote)) (key ++ ':' :: old)
        rw [dropped] at whole stops
        obtain rfl : close = quote := by simpa using stops
        generalize (key ++ ':' :: old).takeWhile (fun c => decide (c ≠ close)) = hidden at eq whole pass
        obtain rfl : hidden ++ close :: inner = key := by simpa using eq
        obtain rfl : inner ++ ':' :: old = behind := by simpa using whole.symm
        rw [List.append_assoc, List.dropWhile_append_of_pos pass, List.takeWhile_append_of_pos pass]
        simp [beforeColon?_append inside separate]
    next plain =>
      have found : beforeColon? 0 ' ' ((quote :: key) ++ ':' :: old) = some (quote :: key) := found
      rw [if_neg plain, ← List.cons_append]
      exact beforeColon?_append found separate

namespace Line

theorem itemsFrom_spaces (l : Line) (column n : Nat) (t : Text) :
    l.itemsFrom column (spaces n ++ t) = l.itemsFrom (column + n) t := by
  induction n generalizing column with
  | zero => simp [spaces]
  | succ n ih =>
    rw [spaces, List.replicate_succ, List.cons_append, itemsFrom, ← spaces, ih, Nat.add_assoc, Nat.add_comm 1]

theorem itemsFrom_leaf (l : Line) (column : Nat) {c : Char} {t : Text} (space : c ≠ ' ')
    (entry : ¬(c = '-' ∧ t.head?.all (· == ' ') = true)) :
    l.itemsFrom column (c :: t) = [l.leaf column (c :: t)] := by
  by_cases dash : c = '-'
  · subst dash
    rw [itemsFrom, if_neg (fun h => entry ⟨rfl, h⟩)]
  · rw [itemsFrom] <;> simp [space, dash]

/-- Behind its indentation a written line is raw if a tab follows, and otherwise it opens items. -/
theorem items_written {l : Line} {column : Nat} {c : Char} {t : Text} (content : l.content = spaces column ++ c :: t)
    (written : indentation l.content = some column) :
    l.items = if c = '\t' then [l.item (.raw column) column] else l.itemsFrom column (c :: t) := by
  have at' : l.content[column]? = some c := by simp [content, spaces]
  have behind : l.itemsFrom 0 l.content = l.itemsFrom column (c :: t) := by
    rw [content, itemsFrom_spaces, Nat.zero_add]
  simp only [items_of_indentation written, at', Option.some.injEq, behind]

end Line

theorem Text.column_eq_of_indentation {column x : Nat} {c : Char} {t : Text} (space : c ≠ ' ')
    (h : indentation (spaces column ++ c :: t) = some x) : x = column := by
  rw [indentation_spaces, indentation_cons space] at h
  split at h
  · contradiction
  · simpa using h.symm

/-- A key that is found before its colon and that does not start like anything else. -/
structure Text.KeyShape (c : Char) (rest : Text) : Prop where
  space : c ≠ ' '
  tab : c ≠ '\t'
  comment : c ≠ '#'
  entry : ¬(c = '-' ∧ (rest ++ [':']).head?.all (· == ' ') = true)
  found : keyPart? (c :: rest ++ [':']) = some (c :: rest)
  trimmed : trimEnd (c :: rest) = c :: rest

namespace Text.IsPlainKey

variable {key : Text}

theorem notMem_newline (plain : key.IsPlainKey) : '\n' ∉ key := by
  obtain ⟨n, single, -⟩ := plain
  intro member
  obtain ⟨piece, rest, rfl, none⟩ := List.eq_append_cons_of_mem member
  have length := congrArg List.length single
  simp only [Document.outline_eq, Outline.ofItems, List.tail_cons, length_nest, List.length_singleton] at length
  have lines : (Document.mk (piece ++ '\n' :: rest ++ [':'])).items =
      (Line.ofTerminated 0 piece).items ++ (Line.read (bytes piece + 1) (rest ++ [':'])).flatMap Line.items := by
    rw [Document.items, Document.lines_eq, List.append_assoc, List.cons_append, Line.read_break _ _ none]
    simp
  have first := List.length_pos_iff.mpr (Line.items_ne_nil (Line.ofTerminated 0 piece))
  obtain ⟨l, lower, eq⟩ := List.exists_cons_of_ne_nil (Line.read_ne_nil (bytes piece + 1) (rest ++ [':']))
  have second := List.length_pos_iff.mpr (Line.items_ne_nil l)
  rw [lines, eq] at length
  simp only [List.length_append, List.flatMap_cons] at length
  omega

theorem items_eq (plain : key.IsPlainKey) :
    ∃ item, (Line.mk 0 (key ++ [':']) none).items = [item] ∧ item.kind.name? = some key := by
  have none : '\n' ∉ key ++ [':'] := by simpa using plain.notMem_newline
  obtain ⟨n, single, name⟩ := plain
  have lines : (Document.mk (key ++ [':'])).items = (Line.mk 0 (key ++ [':']) .none).items := by
    rw [Document.items, Document.lines_eq, Line.read_piece _ none]
    simp
  rw [Document.outline_eq, Outline.ofItems, List.tail_cons, lines] at single
  obtain ⟨item, eq⟩ := List.length_eq_one_iff.mp
    (by simpa using congrArg List.length single : (Line.mk 0 (key ++ [':']) .none).items.length = 1)
  rw [eq, nest_cons] at single
  obtain rfl := (List.cons_eq_cons.mp single).1
  exact ⟨item, eq, name⟩

theorem exists_shape_of_leaf {column : Nat} {c : Char} {rest : Text} (content : key ++ [':'] = spaces column ++ c :: rest)
    (indented : indentation (key ++ [':']) = some column) (space : c ≠ ' ') (tab : c ≠ '\t')
    (entry : ¬(c = '-' ∧ rest.head?.all (· == ' ') = true))
    (name : ((Line.mk 0 (key ++ [':']) none).leaf column (c :: rest)).kind.name? = some key) :
    ∃ c rest, key = c :: rest ∧ KeyShape c rest := by
  unfold Line.leaf at name
  split at name
  next part found =>
    obtain ⟨more, split, -, written⟩ := keyPart?_eq_some found
    have trimmed : trimEnd part = key := by simpa [Line.item, Kind.name?] using name
    -- Trimmed, the part is no longer than the key, and so there is nothing else on the line.
    have shorter := length_trimEnd_le part
    have lengths := congrArg List.length content
    have lengths' := congrArg List.length split
    simp only [List.length_append, List.length_cons, List.length_nil, spaces, List.length_replicate,
      trimmed] at lengths lengths' shorter
    obtain rfl : column = 0 := by omega
    obtain rfl : more = [] := List.length_eq_zero_iff.mp (by omega)
    rw [spaces, List.replicate_zero, List.nil_append] at content
    obtain rfl : key = part := (List.append_inj' (content.trans split) rfl).1
    cases key with
    | nil => simp [isBlank] at written
    | cons d key =>
      obtain ⟨rfl, rfl⟩ := List.cons_eq_cons.mp content
      rw [List.cons_append, indentation_cons space] at indented
      have comment : d ≠ '#' := by
        rintro rfl
        simp at indented
      exact ⟨d, key, rfl, space, tab, comment, entry, found, trimmed⟩
  next => simp [Line.item, Kind.name?] at name

theorem exists_shape (plain : key.IsPlainKey) : ∃ c rest, key = c :: rest ∧ KeyShape c rest := by
  obtain ⟨item, single, name⟩ := plain.items_eq
  cases h : indentation (key ++ [':']) with
  | none =>
    obtain ⟨column, -, eq⟩ := Line.items_gap (l := ⟨0, key ++ [':'], none⟩) h
    obtain rfl := List.singleton_inj.mp (single.symm.trans eq)
    simp [Line.item, Kind.name?] at name
  | some column =>
    obtain ⟨c, rest, content, space⟩ := exists_of_indentation h
    rw [Line.items_written (show (Line.mk 0 (key ++ [':']) none).content = _ from content) h] at single
    by_cases tab : c = '\t'
    · rw [if_pos tab] at single
      obtain rfl := List.singleton_inj.mp single
      simp [Line.item, Kind.name?] at name
    · rw [if_neg tab] at single
      by_cases entry : c = '-' ∧ rest.head?.all (· == ' ') = true
      · obtain ⟨rfl, opener⟩ := entry
        rw [Line.itemsFrom, if_pos opener] at single
        obtain rfl := (List.cons_eq_cons.mp single).1
        simp [Line.item, Kind.name?] at name
      · rw [Line.itemsFrom_leaf _ _ space entry] at single
        obtain rfl := List.singleton_inj.mp single
        exact exists_shape_of_leaf content h space tab entry name

end Text.IsPlainKey

theorem Line.items_of_keyPart? {l : Line} {column : Nat} {c : Char} {part old rest : Text} (space : c ≠ ' ')
    (tab : c ≠ '\t') (comment : c ≠ '#') (entry : ¬(c = '-' ∧ (part ++ [':']).head?.all (· == ' ') = true))
    (found : keyPart? (c :: part ++ ':' :: old) = some (c :: part))
    (content : l.content = spaces column ++ (c :: part) ++ ':' :: rest) (separate : separates rest = true) :
    indentation l.content = some column ∧
      l.items = [l.item (.key column (trimEnd (c :: part)) (l.start + column + bytes (c :: part))) column] := by
  rw [List.append_assoc, List.cons_append] at content
  have indented : indentation l.content = some column := by
    have colon : isBlank (part ++ ':' :: rest) = false := by simp [isBlank, show isWhite ':' = false by decide]
    rw [content, indentation_spaces, indentation_cons space]
    simp [comment, colon]
  have entry : ¬(c = '-' ∧ (part ++ ':' :: rest).head?.all (· == ' ') = true) := by
    cases part with
    | nil => simp
    | cons => simpa using entry
  refine ⟨indented, ?_⟩
  rw [items_written content indented, if_neg tab, itemsFrom_leaf _ _ space entry, Line.leaf, ← List.cons_append,
    keyPart?_append found separate]

/-- A line that holds a plain key before a colon names that key, and opens nothing else. -/
theorem Line.items_key {l : Line} {column : Nat} {key rest : Text} (plain : key.IsPlainKey)
    (content : l.content = spaces column ++ key ++ ':' :: rest) (separate : separates rest = true) :
    indentation l.content = some column ∧
      l.items = [l.item (.key column key (l.start + column + bytes key)) column] := by
  obtain ⟨c, tail, rfl, shape⟩ := plain.exists_shape
  have items := items_of_keyPart? shape.space shape.tab shape.comment shape.entry shape.found content separate
  rwa [shape.trimmed] at items

end Offside
