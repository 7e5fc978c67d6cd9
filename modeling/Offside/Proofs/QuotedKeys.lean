import Offside.Proofs.DocumentOrder
import Offside.Proofs.Words

/-! Keys in quotes. The search for the colon takes the next quote for the closing one, so that a quote that stands within a
scalar opens the rest of it to the search. The scalar is the key if the search passes over that rest. -/
namespace Offside

open Text Character

/-- What stands between single quotes. A quote there is doubled. -/
inductive Text.SingleBody : Text → Prop
  | nil : SingleBody []
  | quote {t : Text} (body : SingleBody t) : SingleBody ('\x27' :: '\x27' :: t)
  | other {c : Char} {t : Text} (apart : c ≠ '\x27') (body : SingleBody t) : SingleBody (c :: t)

/-- What stands between double quotes. A backslash takes what follows it for a letter. -/
inductive Text.DoubleBody : Text → Prop
  | nil : DoubleBody []
  | escape {c : Char} {t : Text} (body : DoubleBody t) : DoubleBody ('\\' :: c :: t)
  | other {c : Char} {t : Text} (apart : c ≠ '"' ∧ c ≠ '\\') (body : DoubleBody t) : DoubleBody (c :: t)

/-- A complete scalar in quotes. -/
inductive Text.QuotedScalar : Text → Prop
  | single {t : Text} (body : SingleBody t) : QuotedScalar ('\x27' :: t ++ ['\x27'])
  | double {t : Text} (body : DoubleBody t) : QuotedScalar ('"' :: t ++ ['"'])

/-- The search for a colon goes on behind the text as if it were not there: no comment begins in it, no colon outside of
brackets has a blank or a tab behind it, and all brackets are closed. -/
structure Text.PassedOver (t : Text) : Prop where
  comment : ∀ a b, t = a ++ '#' :: b → a.getLast? ≠ some ' '
  colon : ∀ a b, t = a ++ ':' :: b → a.foldl bracketDepth 0 = 0 → b.head? ≠ some ' ' ∧ b.head? ≠ some '\t'
  closed : t.foldl bracketDepth 0 = 0

/-- What follows the second quote of a scalar is passed over. Without quotes between the first and the last one, nothing
follows. -/
def Text.HidesColons (t : Text) : Prop :=
  ∀ quote front behind, t = quote :: (front ++ quote :: behind) → quote ∉ front → PassedOver behind

instance (t : Text) : Decidable t.PassedOver :=
  decidable_of_iff ((∀ a b, t = a ++ '#' :: b → a.getLast? ≠ some ' ') ∧
      (∀ a b, t = a ++ ':' :: b → a.foldl bracketDepth 0 = 0 → b.head? ≠ some ' ' ∧ b.head? ≠ some '\t') ∧
      t.foldl bracketDepth 0 = 0)
    ⟨fun all => ⟨all.1, all.2.1, all.2.2⟩, fun passed => ⟨passed.comment, passed.colon, passed.closed⟩⟩

instance : (t : Text) → Decidable t.HidesColons
  | [] => .isTrue (by simp [Text.HidesColons])
  | quote :: rest =>
    decidable_of_iff (∀ front behind, rest = front ++ quote :: behind → quote ∉ front → Text.PassedOver behind)
      ⟨fun all _ front behind split first => by
        obtain ⟨rfl, rest⟩ := List.cons_eq_cons.mp split
        exact all front behind rest first,
      fun hides front behind split first => hides quote front behind (by rw [split]) first⟩

example : Text.HidesColons "\x27a: b # c\x27".toList ∧ ¬Text.HidesColons "\"a\\\" # b\"".toList := by decide

namespace Text

theorem SingleBody.append_of_notMem {a t : Text} (apart : '\x27' ∉ a) (body : SingleBody t) : SingleBody (a ++ t) := by
  induction a with
  | nil => exact body
  | cons c a ih =>
    rw [List.mem_cons, not_or] at apart
    exact .other (Ne.symm apart.1) (ih apart.2)

theorem QuotedScalar.exists_body {t : Text} (quoted : t.QuotedScalar) :
    ∃ quote body, t = quote :: (body ++ [quote]) ∧ (quote = '"' ∨ quote = '\x27') := by
  cases quoted with
  | single => exact ⟨_, _, rfl, .inr rfl⟩
  | double => exact ⟨_, _, rfl, .inl rfl⟩

end Text

theorem separates_append_colon {b rest : Text} :
    separates (b ++ ':' :: rest) = false ↔ b.head? ≠ some ' ' ∧ b.head? ≠ some '\t' := by
  cases b <;> simp [separates]

theorem beforeColon?_eq_some_iff {depth : Nat} {last : Char} {t rest : Text} (separate : separates rest = true) :
    beforeColon? depth last (t ++ ':' :: rest) = some t ↔
      (∀ a b, t = a ++ '#' :: b → (last :: a).getLast? ≠ some ' ') ∧
      (∀ a b, t = a ++ ':' :: b → a.foldl bracketDepth depth = 0 → b.head? ≠ some ' ' ∧ b.head? ≠ some '\t') ∧
      t.foldl bracketDepth depth = 0 := by
  induction t generalizing depth last with
  | nil => by_cases outside : depth = 0 <;> simp [beforeColon?, separate, outside]
  | cons c t ih =>
    rw [List.cons_append, beforeColon?, forall_split_cons, forall_split_cons]
    by_cases comment : c = '#' ∧ last = ' '
    · simp [comment]
    by_cases colon : c = ':' ∧ depth = 0 ∧ separates (t ++ ':' :: rest) = true
    · -- The colon is found before the text ends.
      have tight : ¬(t.head? ≠ some ' ' ∧ t.head? ≠ some '\t') := by
        rw [← separates_append_colon, colon.2.2]
        exact Bool.noConfusion
      rw [if_neg comment, if_pos colon]
      refine iff_of_false (by simp) ?_
      rintro ⟨-, ⟨first, -⟩, -⟩
      exact tight (first colon.1 colon.2.1)
    · have further : (beforeColon? (bracketDepth depth c) c (t ++ ':' :: rest)).map (c :: ·) = some (c :: t) ↔
          beforeColon? (bracketDepth depth c) c (t ++ ':' :: rest) = some t := by simp
      have noComment : c = '#' → [last].getLast? ≠ some ' ' := by simpa using comment
      have noColon : c = ':' → [].foldl bracketDepth depth = 0 → t.head? ≠ some ' ' ∧ t.head? ≠ some '\t' := by
        intro here outside
        rw [← @separates_append_colon t rest, ← Bool.not_eq_true]
        exact fun found => colon ⟨here, outside, found⟩
      rw [if_neg comment, if_neg colon, further, ih, and_iff_right noComment, and_iff_right noColon]
      simp only [List.getLast?_cons_cons, List.foldl_cons]

theorem Text.hidesColons_iff {quote : Char} {front behind : Text} (first : quote ∉ front) :
    HidesColons (quote :: (front ++ quote :: behind)) ↔ PassedOver behind := by
  constructor
  · intro hides
    exact hides quote front behind rfl first
  · rintro passed quote' front' behind' split first'
    obtain ⟨rfl, rest⟩ := List.cons_eq_cons.mp split
    have quotes {a b x y : Text} (outside : quote ∉ b) (same : a ++ quote :: x = b ++ quote :: y) : b.length ≤ a.length := by
      by_contra shorter
      rcases List.append_eq_append_iff.mp same with ⟨c, rfl, ending⟩ | ⟨c, rfl, -⟩
      · cases c with
        | nil => simp at shorter
        | cons d c =>
          obtain rfl := (List.cons_eq_cons.mp ending).1
          simp at outside
      · simp at shorter
    have length := Nat.le_antisymm (quotes first rest.symm) (quotes first' rest)
    obtain ⟨-, later⟩ := List.append_inj rest length
    obtain ⟨-, rfl⟩ := List.cons_eq_cons.mp later
    exact passed

/-- A text in quotes is found before the colon behind it if what follows its second quote is passed over. -/
theorem keyPart?_quoted_iff {quote : Char} {body rest : Text} (mark : quote = '"' ∨ quote = '\x27')
    (separate : separates rest = true) :
    keyPart? (quote :: (body ++ [quote]) ++ ':' :: rest) = some (quote :: (body ++ [quote])) ↔
      HidesColons (quote :: (body ++ [quote])) := by
  obtain ⟨front, behind, split, first⟩ := List.eq_append_cons_of_mem (show quote ∈ body ++ [quote] by simp)
  have visible : isWhite quote = false := by rcases mark with rfl | rfl <;> decide
  have space : quote ≠ ' ' := by rcases mark with rfl | rfl <;> decide
  have pass : ∀ c ∈ front, decide (c ≠ quote) = true := by
    intro c member
    have : c ≠ quote := by
      rintro rfl
      exact first member
    simpa using this
  have found : keyPart? (quote :: (front ++ quote :: behind) ++ ':' :: rest) =
      (beforeColon? 0 quote (behind ++ ':' :: rest)).map ((quote :: front ++ [quote]) ++ ·) := by
    rw [List.cons_append, List.append_assoc, List.cons_append, keyPart?]
    simp only [if_pos mark, List.dropWhile_append_of_pos pass, List.takeWhile_append_of_pos pass, List.dropWhile_cons,
      List.takeWhile_cons, ne_eq, not_true_eq_false, decide_false, Bool.false_eq_true, ↓reduceIte, List.append_nil]
    cases beforeColon? 0 quote (behind ++ ':' :: rest) <;> simp [isBlank, visible]
  have whole : (beforeColon? 0 quote (behind ++ ':' :: rest)).map ((quote :: front ++ [quote]) ++ ·) =
      some (quote :: (front ++ quote :: behind)) ↔ beforeColon? 0 quote (behind ++ ':' :: rest) = some behind := by
    simp
  rw [split, found, whole, hidesColons_iff first, beforeColon?_eq_some_iff separate]
  constructor
  · rintro ⟨comment, colon, closed⟩
    refine ⟨fun a b split last => comment a b split ?_, colon, closed⟩
    rw [List.getLast?_cons, last]
    rfl
  · rintro ⟨comment, colon, closed⟩
    refine ⟨fun a b split => ?_, colon, closed⟩
    cases a with
    | nil => simp [space]
    | cons c a =>
      rw [List.getLast?_cons_cons]
      exact comment (c :: a) b split

theorem Text.isSome_indentation_append {lead t : Text} (leads : leadsToKey lead = true)
    (written : (indentation t).isSome = true) : (indentation (lead ++ t)).isSome = true := by
  induction lead using leadsToKey.induct with
  | case1 => exact written
  | case2 lead ih =>
    rw [leadsToKey] at leads
    rw [List.cons_append, indentation_space, Option.isSome_map]
    exact ih leads
  | case3 lead ih => simp [indentation_cons, show isWhite '-' = false by decide]
  | case4 lead nil space dash => simp [leadsToKey] at leads

namespace Line

theorem exists_itemsFrom_lead (l : Line) (column : Nat) {lead t : Text} (leads : leadsToKey lead = true)
    (marked : lead.getLast? ≠ some '-') (written : (indentation t).isSome = true) :
    ∃ entries, l.itemsFrom column (lead ++ t) = entries ++ l.itemsFrom (column + bytes lead) t ∧
      ∀ x ∈ entries, ∃ c, x.kind = .entry c := by
  induction lead using leadsToKey.induct generalizing column with
  | case1 => exact ⟨[], rfl, by simp⟩
  | case2 lead ih =>
    rw [leadsToKey] at leads
    have marked : lead.getLast? ≠ some '-' := by
      cases lead with
      | nil => simp
      | cons => simpa using marked
    obtain ⟨entries, items, entry⟩ := ih (column + 1) leads marked
    refine ⟨entries, ?_, entry⟩
    rw [List.cons_append, itemsFrom, items, bytes_cons, utf8Size_space, Nat.add_assoc]
  | case3 lead ih =>
    rw [leadsToKey, Bool.and_eq_true] at leads
    obtain ⟨next, leads⟩ := leads
    obtain ⟨c, lead, rfl⟩ : ∃ c more, lead = c :: more := by
      cases lead with
      | nil => simp at marked
      | cons c lead => exact ⟨c, lead, rfl⟩
    have marked : (c :: lead).getLast? ≠ some '-' := by simpa using marked
    obtain ⟨entries, items, entry⟩ := ih (column + 1) leads marked
    refine ⟨l.item (.entry column) column :: entries, ?_, ?_⟩
    · have size : bytes ('-' :: c :: lead) = 1 + bytes (c :: lead) := rfl
      rw [List.cons_append, itemsFrom, if_pos (by simpa using next), if_pos (isSome_indentation_append leads written),
        items, size, Nat.add_assoc]
      rfl
    · rintro x member
      rcases List.mem_cons.mp member with rfl | later
      · exact ⟨column, rfl⟩
      · exact entry x later
  | case4 lead nil space dash => simp [leadsToKey] at leads

theorem exists_items_lead {l : Line} {lead t : Text} {c : Char} (content : l.content = lead ++ c :: t)
    (leads : leadsToKey lead = true) (marked : lead.getLast? ≠ some '-') (letter : isWhite c = false)
    (comment : c ≠ '#') (dash : c ≠ '-') :
    ∃ entries, l.items = entries ++ [l.leaf (bytes lead) (c :: t)] ∧ ∀ x ∈ entries, ∃ column, x.kind = .entry column := by
  have space : c ≠ ' ' := by
    rintro rfl
    exact absurd letter (by decide)
  have written : (indentation (c :: t)).isSome = true := by simp [indentation_cons space, letter, comment]
  obtain ⟨column, indented⟩ := Option.isSome_iff_exists.mp (isSome_indentation_append leads written)
  have tab : l.content[column]? ≠ some '\t' := by
    obtain ⟨x, rest, split, other⟩ := exists_of_indentation indented
    have at' : l.content[column]? = some x := by simp [content, split, spaces]
    rw [at']
    rcases List.append_eq_append_iff.mp split with ⟨z, indent, behind⟩ | ⟨z, rfl, behind⟩
    · cases z with
      | nil =>
        obtain rfl := (List.cons_eq_cons.mp behind).1
        rintro ⟨⟩
        exact absurd letter (by decide)
      | cons y z =>
        obtain rfl := (List.cons_eq_cons.mp behind).1
        have member : c ∈ spaces column := by simp [indent]
        exact absurd (List.eq_of_mem_replicate member) space
    · cases z with
      | nil =>
        obtain rfl := (List.cons_eq_cons.mp behind).1
        rintro ⟨⟩
        exact absurd letter (by decide)
      | cons y z =>
        obtain rfl := (List.cons_eq_cons.mp behind).1
        rintro ⟨⟩
        have := letters_of_leadsToKey leads '\t' (by simp)
        contradiction
  obtain ⟨entries, items, entry⟩ := l.exists_itemsFrom_lead 0 leads marked written
  refine ⟨entries, ?_, entry⟩
  rw [items_of_indentation (content ▸ indented), if_neg tab, content, items, Nat.zero_add,
    itemsFrom_leaf _ _ space (fun entry => dash entry.1)]

theorem leaf_eq_key_iff {l : Line} {column : Nat} {name rest : Text} (trimmed : trimEnd name = name) :
    (l.leaf column (name ++ ':' :: rest)).kind = .key column name (l.start + column + bytes name) ↔
      keyPart? (name ++ ':' :: rest) = some name := by
  unfold leaf
  cases found : keyPart? (name ++ ':' :: rest) with
  | none => simp [item]
  | some part =>
    obtain ⟨more, split, -, -⟩ := keyPart?_eq_some found
    simp only [item, Kind.key.injEq, true_and, Nat.add_left_cancel_iff, Option.some.injEq]
    constructor
    · rintro ⟨-, same⟩
      exact (append_inj_of_bytes split same.symm).1.symm
    · rintro rfl
      exact ⟨trimmed, rfl⟩

end Line

/-- A scalar in quotes that spaces and dashes lead to, and that a colon with white space or the end of the line follows, is a
key of the outline, with that colon, exactly if it hides its own colons. -/
theorem Document.quotedKey_iff {d : Document} {l : Line} {lead scalar rest : Text} (member : l ∈ d.lines)
    (content : l.content = lead ++ (scalar ++ ':' :: rest)) (leads : leadsToKey lead = true)
    (marked : lead.getLast? ≠ some '-') (quoted : scalar.QuotedScalar) (separate : separates rest = true) :
    (∃ n ∈ d.outline.nodes, n.start = l.start + bytes lead ∧
      n.kind = .key (bytes lead) scalar (l.start + bytes lead + bytes scalar)) ↔ scalar.HidesColons := by
  obtain ⟨quote, body, rfl, mark⟩ := quoted.exists_body
  have letter : isWhite quote = false := by rcases mark with rfl | rfl <;> decide
  have comment : quote ≠ '#' := by rcases mark with rfl | rfl <;> decide
  have dash : quote ≠ '-' := by rcases mark with rfl | rfl <;> decide
  have trimmed : trimEnd (quote :: (body ++ [quote])) = quote :: (body ++ [quote]) := by simp [trimEnd, letter]
  obtain ⟨entries, items, entry⟩ := Line.exists_items_lead (t := body ++ [quote] ++ ':' :: rest) content leads marked letter
    comment dash
  have last : (l.leaf (bytes lead) (quote :: (body ++ [quote]) ++ ':' :: rest)) ∈ l.items := by
    rw [items]
    exact List.mem_append_right _ List.mem_cons_self
  have start (x : Text) : (l.leaf (bytes lead) x).start = l.start + bytes lead := by
    unfold Line.leaf
    split <;> rfl
  rw [← keyPart?_quoted_iff mark separate, ← @Line.leaf_eq_key_iff l (bytes lead) _ rest trimmed]
  constructor
  · rintro ⟨n, inside, place, key⟩
    obtain ⟨i, found⟩ := List.mem_iff_getElem?.mp inside
    have stands : n.kind.column? = some (bytes lead) := by rw [key]; rfl
    have item := mem_items_of_node found (Kind.ne_root_of_column? stands)
    have bounds := Line.bounds_of_mem_items last
    rw [start, ← place] at bounds
    have onLine : n.toItem ∈ l.items :=
      mem_items_of_covers member bounds.1 bounds.2.1 item (Nat.le_refl _) (bounds_of_mem_nodes inside).1
    rw [items, List.mem_append, List.mem_singleton] at onLine
    rcases onLine with before | here
    · obtain ⟨column, kind⟩ := entry _ before
      rw [key] at kind
      contradiction
    · rw [List.cons_append, ← here, key]
  · intro key
    obtain ⟨i, n, found, same⟩ := exists_node_of_mem_items member last
    exact ⟨n, List.mem_of_getElem? found, by rw [same, start], by rw [same, key]⟩

/-- A doubled quote does no harm where the colon behind it stands in brackets. -/
theorem Document.quotedKey_doubled :
    let d : Document := ⟨"- \x27it\x27\x27s [a: b]\x27: 1\n".toList⟩
    let scalar : Text := "\x27it\x27\x27s [a: b]\x27".toList
    scalar.QuotedScalar ∧ (∃ n ∈ d.outline.nodes, n.start = 2 ∧ n.kind = .key 2 scalar 16) ∧ scalar.HidesColons := by
  intro d scalar
  have quoted : scalar.QuotedScalar := .single (.append_of_notMem (a := "it".toList) (by decide)
    (.quote (.append_of_notMem (a := "s [a: b]".toList) (by decide) .nil)))
  have key : ∃ n ∈ d.outline.nodes, n.start = 2 ∧ n.kind = .key 2 scalar 16 := by decide
  let l : Line := ⟨0, "- ".toList ++ scalar ++ ": 1".toList, some .lf⟩
  have member : l ∈ d.lines := by decide
  exact ⟨quoted, key, (@quotedKey_iff d l "- ".toList scalar " 1".toList member rfl (by decide) (by decide) quoted
    (by decide)).mp key⟩

/-- Without the brackets the colon behind a doubled quote ends the name. -/
theorem Document.quotedKey_torn :
    let d : Document := ⟨"\x27it\x27\x27s: x\x27: 1".toList⟩
    let scalar : Text := "\x27it\x27\x27s: x\x27".toList
    scalar.QuotedScalar ∧ d.lines = [⟨0, scalar ++ ": 1".toList, none⟩] ∧
      (∀ n ∈ d.outline.nodes, n.kind.name? ≠ some scalar) ∧ ∃ n ∈ d.outline.nodes, n.kind = .key 0 "\x27it\x27\x27s".toList 6 := by
  intro d scalar
  have quoted : scalar.QuotedScalar := .single (.append_of_notMem (a := "it".toList) (by decide)
    (.quote (.append_of_notMem (a := "s: x".toList) (by decide) .nil)))
  exact ⟨quoted, by decide, by decide, by decide⟩

end Offside
