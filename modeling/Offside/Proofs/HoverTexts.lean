import Mathlib.Data.List.TakeWhile
import Offside.Display.Hover

/-! Tags in hover texts. A hover text is cut at its tags. Which tags there are depends on what is known of the property, and not on
the contents, which come back as they were from between the tags. -/
namespace Offside

open Text

namespace Html

/-- A text with tags: each tag behind what comes before it, and what follows the last one. -/
structure Page where
  tagged : List (Text × Text)
  last : Text
  deriving DecidableEq, Repr

namespace Page

def tags (page : Page) : List Text := page.tagged.map Prod.snd

/-- The texts between the tags, before the first and behind the last one included. -/
def texts (page : Page) : List Text := page.tagged.map Prod.fst ++ [page.last]

def raw (page : Page) : Text := page.tagged.flatMap (fun (t, tag) => t ++ tag) ++ page.last

def map (f : Text → Text) (page : Page) : Page := ⟨page.tagged.map fun (t, tag) => (f t, tag), f page.last⟩

@[simp] theorem tags_map (f : Text → Text) (page : Page) : (page.map f).tags = page.tags := by
  simp [tags, map, Function.comp_def]

@[simp] theorem texts_map (f : Text → Text) (page : Page) : (page.map f).texts = page.texts.map f := by
  simp [texts, map, Function.comp_def]

end Page

/-- Cuts a text at its tags, each of them from a `<` to the next `>`. -/
def cut (t : Text) : Page :=
  let behind := (t.dropWhile (· ≠ '<')).tail
  if '<' ∈ t ∧ '>' ∈ behind then
    let later := cut (behind.dropWhile (· ≠ '>')).tail
    ⟨(t.takeWhile (· ≠ '<'), '<' :: behind.takeWhile (· ≠ '>') ++ ['>']) :: later.tagged, later.last⟩
  else ⟨[], t⟩
termination_by t.length
decreasing_by
  rename_i tagged
  have := List.length_pos_of_mem tagged.1
  have := (List.dropWhile_suffix (· ≠ '<') (l := t)).length_le
  have := (List.dropWhile_suffix (· ≠ '>') (l := (t.dropWhile (· ≠ '<')).tail)).length_le
  simp only [List.length_tail] at *
  omega

/-- It begins with a `<`, and the only `>` is its end. -/
def IsTag (t : Text) : Prop := t.head? = some '<' ∧ t.tail.getLast? = some '>' ∧ '>' ∉ t.dropLast

instance (t : Text) : Decidable (IsTag t) := inferInstanceAs (Decidable (_ ∧ _))

theorem IsTag.exists_body {t : Text} (closed : IsTag t) : ∃ body, t = '<' :: body ++ ['>'] ∧ '>' ∉ body := by
  obtain ⟨first, last, inside⟩ := closed
  obtain ⟨rest, rfl⟩ := List.head?_eq_some_iff.mp first
  obtain ⟨body, rfl⟩ := List.getLast?_eq_some_iff.mp last
  have front : ('<' :: (body ++ ['>'])).dropLast = '<' :: body := by rw [← List.cons_append, List.dropLast_concat]
  rw [front] at inside
  exact ⟨body, rfl, fun member => inside (List.mem_cons_of_mem _ member)⟩

theorem cut_of_notMem {t : Text} (plain : '<' ∉ t) : cut t = ⟨[], t⟩ := by
  rw [cut, if_neg fun tagged => plain tagged.1]

theorem takeWhile_before {c : Char} {t : Text} (none : c ∉ t) (rest : Text) : (t ++ c :: rest).takeWhile (· ≠ c) = t := by
  rw [List.takeWhile_append_of_pos fun d member => decide_eq_true (ne_of_mem_of_not_mem member none)]
  simp

theorem dropWhile_before {c : Char} {t : Text} (none : c ∉ t) (rest : Text) :
    (t ++ c :: rest).dropWhile (· ≠ c) = c :: rest := by
  rw [List.dropWhile_append_of_pos fun d member => decide_eq_true (ne_of_mem_of_not_mem member none)]
  simp

theorem cut_append {t tag : Text} (plain : '<' ∉ t) (closed : IsTag tag) (rest : Text) :
    cut (t ++ tag ++ rest) = ⟨(t, tag) :: (cut rest).tagged, (cut rest).last⟩ := by
  obtain ⟨body, rfl, inside⟩ := closed.exists_body
  have split : t ++ ('<' :: body ++ ['>']) ++ rest = t ++ '<' :: (body ++ '>' :: rest) := by simp
  rw [split, cut, takeWhile_before plain, dropWhile_before plain, if_pos (by simp), List.tail_cons, takeWhile_before inside,
    dropWhile_before inside, List.tail_cons]

theorem cut_raw {page : Page} (plain : ∀ t ∈ page.texts, '<' ∉ t) (closed : ∀ tag ∈ page.tags, IsTag tag) :
    cut page.raw = page := by
  obtain ⟨tagged, last⟩ := page
  induction tagged with
  | nil => exact cut_of_notMem (plain last (List.mem_singleton_self last))
  | cons entry tagged ih =>
    obtain ⟨t, tag⟩ := entry
    obtain ⟨first, plain⟩ := List.forall_mem_cons.mp plain
    obtain ⟨tagFirst, closed⟩ := List.forall_mem_cons.mp closed
    have later := ih plain closed
    have split : Page.raw ⟨(t, tag) :: tagged, last⟩ = t ++ tag ++ Page.raw ⟨tagged, last⟩ := by simp [Page.raw]
    rw [split, cut_append first tagFirst, later]

def unescape : Text → Text
  | '&' :: 'l' :: 't' :: ';' :: rest => '<' :: unescape rest
  | '&' :: 'g' :: 't' :: ';' :: rest => '>' :: unescape rest
  | '&' :: 'a' :: 'm' :: 'p' :: ';' :: rest => '&' :: unescape rest
  | '&' :: 'q' :: 'u' :: 'o' :: 't' :: ';' :: rest => '"' :: unescape rest
  | c :: rest => c :: unescape rest
  | [] => []

theorem unescape_cons {c : Char} (other : c ≠ '&') (rest : Text) : unescape (c :: rest) = c :: unescape rest := by
  rw [unescape] <;> simp [other]

theorem unescape_escapeChar (c : Char) (rest : Text) : unescape (escapeChar c ++ rest) = c :: unescape rest := by
  unfold escapeChar
  split
  case h_5 => exact unescape_cons ‹_› rest
  all_goals rfl

@[simp] theorem unescape_escape (t : Text) : unescape (escape t) = t := by
  induction t with
  | nil => rfl
  | cons c t ih => rw [escape, List.flatMap_cons, unescape_escapeChar, ← escape, ih]

theorem notMem_escape (t : Text) : '<' ∉ escape t ∧ '>' ∉ escape t := by
  have char (c : Char) : '<' ∉ escapeChar c ∧ '>' ∉ escapeChar c := by
    unfold escapeChar
    split <;> simp_all [eq_comm]
  simp only [escape, List.mem_flatMap, not_exists, not_and]
  exact ⟨fun c _ => (char c).1, fun c _ => (char c).2⟩

end Html

namespace Property

open Html

def page (p : Property) : Page where
  tagged :=
    [([], "<b>".toList), (p.id, "</b>".toList)] ++
    (p.type.map fun t => [([], "<br>".toList), ([], "<code>".toList), (t, "</code>".toList)]).getD [] ++
    (p.shownDefault?.map fun t =>
      [([], "<br>".toList), ([], "<br>".toList), ("Default: ".toList, "<i>".toList), (t, "</i>".toList)]).getD [] ++
    (if p.deprecated then
      [([], "<br>".toList), ([], "<br>".toList), ([], "<b>".toList), ("Deprecated".toList, "</b>".toList)] else []) ++
    (p.description.map fun _ => [([], "<br>".toList), ([], "<br>".toList)]).getD []
  last := p.description.getD []

/-- The tags of a hover text with or without a type, a default value, a deprecation and a description. -/
def hoverTags (type default deprecated description : Bool) : List Text :=
  ["<b>".toList, "</b>".toList] ++
  (if type then ["<br>".toList, "<code>".toList, "</code>".toList] else []) ++
  (if default then ["<br>".toList, "<br>".toList, "<i>".toList, "</i>".toList] else []) ++
  (if deprecated then ["<br>".toList, "<br>".toList, "<b>".toList, "</b>".toList] else []) ++
  if description then ["<br>".toList, "<br>".toList] else []

theorem tags_page (p : Property) :
    p.page.tags = hoverTags p.type.isSome p.shownDefault?.isSome p.deprecated p.description.isSome := by
  unfold page
  cases p.type <;> cases p.shownDefault? <;> cases p.deprecated <;> cases p.description <;> rfl

theorem hoverTags_injective : ∀ a b c d a' b' c' d' : Bool, hoverTags a b c d = hoverTags a' b' c' d' →
    a = a' ∧ b = b' ∧ c = c' ∧ d = d' := by
  decide

theorem isTag_of_mem_hoverTags : ∀ a b c d, ∀ tag ∈ hoverTags a b c d, IsTag tag := by decide

theorem hover_eq (p : Property) : p.hover = (p.page.map escape).raw := by
  have default : escape "Default: ".toList = "Default: ".toList := by decide
  have deprecated : escape "Deprecated".toList = "Deprecated".toList := by decide
  unfold hover page
  cases p.type <;> cases p.shownDefault? <;> cases p.deprecated <;> cases p.description <;>
    simp [Page.map, Page.raw, default, deprecated, -String.reduceToList] <;> rfl

/-- An optional block of a known length is told from what follows it, if it is known whether it is there. -/
theorem optional_append_inj {block : Text → List (Text × Text)} {o o' : Option Text} {rest rest' : List (Text × Text)}
    (level : ∀ t u, (block t).length = (block u).length) (inj : Function.Injective block) (present : o.isSome = o'.isSome)
    (same : (o.map block).getD [] ++ rest = (o'.map block).getD [] ++ rest') : o = o' ∧ rest = rest' := by
  cases o with
  | none =>
    obtain rfl : o' = none := Option.isNone_iff_eq_none.mp (by simpa using present.symm)
    exact ⟨rfl, same⟩
  | some t =>
    obtain ⟨u, rfl⟩ := Option.isSome_iff_exists.mp present.symm
    obtain ⟨blocks, rests⟩ := List.append_inj same (level t u)
    exact ⟨congrArg some (inj blocks), rests⟩

theorem page_injective {p q : Property} (same : p.page = q.page) :
    p.id = q.id ∧ p.type = q.type ∧ p.shownDefault? = q.shownDefault? ∧ p.deprecated = q.deprecated ∧
      p.description = q.description := by
  have tags := congrArg Page.tags same
  rw [tags_page, tags_page] at tags
  obtain ⟨type, default, deprecated, description⟩ := hoverTags_injective _ _ _ _ _ _ _ _ tags
  have tagged := congrArg Page.tagged same
  have last : p.description.getD [] = q.description.getD [] := congrArg Page.last same
  simp only [page, List.append_assoc] at tagged
  obtain ⟨first, tagged⟩ := List.append_inj tagged rfl
  obtain ⟨type, tagged⟩ := optional_append_inj (fun _ _ => rfl) (fun t u eq => by simpa using eq) type tagged
  obtain ⟨default, -⟩ := optional_append_inj (fun _ _ => rfl) (fun t u eq => by simpa using eq) default tagged
  refine ⟨by simpa using first, type, default, deprecated, ?_⟩
  revert description last
  cases p.description <;> cases q.description <;> simp

theorem cut_hover (p : Property) : cut p.hover = p.page.map escape := by
  rw [hover_eq]
  refine cut_raw (fun t member => ?_) fun tag member => ?_
  · rw [Page.texts_map] at member
    obtain ⟨t, -, rfl⟩ := List.mem_map.mp member
    exact (notMem_escape t).1
  · rw [Page.tags_map, tags_page] at member
    exact isTag_of_mem_hoverTags _ _ _ _ tag member

theorem map_unescape_cut_hover (p : Property) : (cut p.hover).map unescape = p.page := by
  rw [cut_hover]
  simp [Page.map, Function.comp_def]

/-- Cutting a hover text at its tags and undoing the escapes gives what it shows. Its tags follow from what is known of the property
alone, no `<` or `>` stands outside of them, and properties with the same hover text differ in nothing that it shows. -/
theorem hover_shows (p : Property) :
    (cut p.hover).map unescape = p.page ∧
    (cut p.hover).tags = hoverTags p.type.isSome p.shownDefault?.isSome p.deprecated p.description.isSome ∧
    (cut p.hover).raw = p.hover ∧ (∀ t ∈ (cut p.hover).texts, '<' ∉ t ∧ '>' ∉ t) ∧
    ∀ q : Property, p.hover = q.hover → p.id = q.id ∧ p.type = q.type ∧ p.shownDefault? = q.shownDefault? ∧
      p.deprecated = q.deprecated ∧ p.description = q.description := by
  refine ⟨map_unescape_cut_hover p, ?_, ?_, fun t member => ?_, fun q same => ?_⟩
  · rw [cut_hover, Page.tags_map, tags_page]
  · rw [cut_hover, hover_eq]
  · rw [cut_hover, Page.texts_map] at member
    obtain ⟨t, -, rfl⟩ := List.mem_map.mp member
    exact notMem_escape t
  · exact page_injective (by rw [← map_unescape_cut_hover p, same, map_unescape_cut_hover q])

/-- An id with a tag and an escape in it. Hints do not show. -/
theorem hover_shows_escaped :
    let p : Property := { Property.named "&lt;<b>".toList with deprecated := true }
    let q : Property := { p with hints := ["a".toList] }
    p.hover = q.hover ∧ p.hover = "<b>&amp;lt;&lt;b&gt;</b><br><br><b>Deprecated</b>".toList ∧ p.id = q.id := by
  intro p q
  have same : p.hover = q.hover := by decide
  exact ⟨same, by decide, ((hover_shows p).2.2.2.2 q same).1⟩

end Property
end Offside
