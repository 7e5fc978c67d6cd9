import Mathlib.Data.List.TakeWhile
import Offside.Catalogue.TypeName
import Offside.Proofs.LastParts

/-! Short forms of types. A type is cut into names, commas with the white space behind them, and other characters. Its short form
has the same parts in the same order, each of them shortened, so that a second shortening finds the same cut again. -/
namespace Offside

open Text Character

namespace Character

theorem Ranges.contains_eq_false {r s : Ranges} (apart : ∀ a ∈ r, ∀ b ∈ s, a.2 < b.1 ∨ b.2 < a.1) {c : Char}
    (inside : r.contains c = true) : s.contains c = false := by
  simp only [contains, List.any_eq_true, List.any_eq_false, Bool.and_eq_true, decide_eq_true_eq] at inside ⊢
  obtain ⟨a, memberA, fromA, toA⟩ := inside
  intro b memberB within
  have := apart a memberA b memberB
  omega

theorem wideBlanks_apart : ∀ a ∈ wideBlanks, ∀ b ∈ wideAlphanumerics, a.2 < b.1 ∨ b.2 < a.1 := by decide +kernel

theorem isAlphanumeric_of_isWhite {c : Char} (white : isWhite c = true) : isAlphanumeric c = false := by
  simp only [isWhite, Bool.or_eq_true, Bool.and_eq_true, decide_eq_true_eq, beq_iff_eq] at white
  rcases white with (rfl | ⟨low, high⟩) | wide
  · decide
  · have all : ∀ n ≤ 13, 9 ≤ n → isAlphanumeric (Char.ofNat n) = false := by decide
    rw [← Char.ofNat_toNat c]
    exact all c.toNat high low
  · have high : ∀ a ∈ wideBlanks, 0x80 ≤ a.1 := by decide
    obtain ⟨a, member, within⟩ := List.any_eq_true.mp wide
    have beyond : ¬c.toNat < 0x80 := by
      have := high a member
      simp only [Bool.and_eq_true, decide_eq_true_eq] at within
      omega
    rw [isAlphanumeric, if_neg beyond, Ranges.contains_eq_false wideBlanks_apart wide]

end Character

namespace TypeName

theorem isNameChar_of_isWhite {c : Char} (white : isWhite c = true) : isNameChar c = false := by
  have stop : isWhite '.' = false ∧ isWhite '_' = false ∧ isWhite '$' = false := by decide
  rw [isNameChar, isAlphanumeric_of_isWhite white]
  grind

/-- A part of a type: a name with its packages, a comma with the white space behind it, or another character. -/
inductive Token where
  | name (letters : Text)
  | comma (gap : Text)
  | other (c : Char)
  deriving DecidableEq, Repr

namespace Token

def text : Token → Text
  | name letters => letters
  | comma gap => ',' :: gap
  | other c => [c]

/-- A name loses its packages, and one blank follows a comma. -/
def short : Token → Token
  | name letters => name (lastPart (· == '.') letters)
  | comma _ => comma [' ']
  | other c => other c

/-- No name that ends with a dot, of which nothing is left. -/
def Whole : Token → Prop
  | name letters => letters.getLast? ≠ some '.'
  | _ => True

instance : (part : Token) → Decidable part.Whole
  | name _ => inferInstanceAs (Decidable (_ ≠ _))
  | comma _ | other _ => .isTrue trivial

@[simp] theorem short_short (part : Token) : part.short.short = part.short := by
  cases part with
  | name letters => rw [short, short, lastPart_lastPart fun _ => id]
  | comma | other => rfl

end Token

/-- The parts of a type from the left. A name goes on as long as there are name characters, and the white space behind a comma as
long as there is any. -/
inductive Tokenized : Text → List Token → Prop
  | nil : Tokenized [] []
  | name {letters rest : Text} {parts : List Token} (started : letters ≠ []) (named : ∀ c ∈ letters, isNameChar c = true)
      (stop : ∀ c ∈ rest.head?, isNameChar c = false) (later : Tokenized rest parts) :
      Tokenized (letters ++ rest) (.name letters :: parts)
  | comma {gap rest : Text} {parts : List Token} (white : ∀ c ∈ gap, isWhite c = true)
      (stop : ∀ c ∈ rest.head?, isWhite c = false) (later : Tokenized rest parts) :
      Tokenized (',' :: gap ++ rest) (.comma gap :: parts)
  | other {c : Char} {rest : Text} {parts : List Token} (unnamed : isNameChar c = false) (apart : c ≠ ',')
      (later : Tokenized rest parts) : Tokenized (c :: rest) (.other c :: parts)

def tokens : Text → List Token
  | [] => []
  | c :: rest =>
    if isNameChar c then .name (c :: rest.takeWhile isNameChar) :: tokens (rest.dropWhile isNameChar)
    else if c = ',' then .comma (rest.takeWhile isWhite) :: tokens (rest.dropWhile isWhite)
    else .other c :: tokens rest
termination_by type => type.length
decreasing_by
  · exact Nat.lt_succ_of_le (List.dropWhile_suffix _).length_le
  · exact Nat.lt_succ_of_le (List.dropWhile_suffix _).length_le
  · exact Nat.lt_succ_self _

theorem stops_dropWhile (p : Char → Bool) (t : Text) : ∀ c ∈ (t.dropWhile p).head?, p c = false := by
  intro c first
  have := List.head?_dropWhile_not p t
  rwa [first] at this

theorem tokenized_tokens (type : Text) : Tokenized type (tokens type) := by
  fun_induction tokens type with
  | case1 => exact .nil
  | case2 c rest named ih =>
    have named : ∀ d ∈ c :: rest.takeWhile isNameChar, isNameChar d = true :=
      List.forall_mem_cons.mpr ⟨named, fun d => List.mem_takeWhile_imp⟩
    have cut := Tokenized.name (List.cons_ne_nil c _) named (stops_dropWhile isNameChar rest) ih
    rwa [List.cons_append, List.takeWhile_append_dropWhile] at cut
  | case3 rest unnamed ih =>
    have white : ∀ d ∈ rest.takeWhile isWhite, isWhite d = true := fun d => List.mem_takeWhile_imp
    have cut := Tokenized.comma white (stops_dropWhile isWhite rest) ih
    rwa [List.cons_append, List.takeWhile_append_dropWhile] at cut
  | case4 c rest unnamed apart ih => exact .other (Bool.not_eq_true _ ▸ unnamed) apart ih

theorem takeWhile_stops {p : Char → Bool} {rest : Text} (stop : ∀ c ∈ rest.head?, p c = false) :
    rest.takeWhile p = [] ∧ rest.dropWhile p = rest := by
  cases rest with
  | nil => exact ⟨rfl, rfl⟩
  | cons d rest => simp [stop d rfl]

namespace Tokenized

variable {type : Text} {parts : List Token}

theorem eq_tokens (cut : Tokenized type parts) : parts = tokens type := by
  induction cut with
  | nil => rw [tokens]
  | @name letters rest parts started named stop later ih =>
    obtain ⟨c, letters, rfl⟩ := List.exists_cons_of_ne_nil started
    obtain ⟨first, more⟩ := List.forall_mem_cons.mp named
    rw [List.cons_append, tokens, if_pos first, List.takeWhile_append_of_pos more, List.dropWhile_append_of_pos more,
      (takeWhile_stops stop).1, (takeWhile_stops stop).2, List.append_nil, ih]
  | @comma gap rest parts white stop later ih =>
    rw [List.cons_append, tokens, if_neg (by decide), if_pos rfl, List.takeWhile_append_of_pos white,
      List.dropWhile_append_of_pos white, (takeWhile_stops stop).1, (takeWhile_stops stop).2, List.append_nil, ih]
  | other unnamed apart later ih => rw [tokens, if_neg (by simp [unnamed]), if_neg apart, ih]

theorem iff_eq_tokens : Tokenized type parts ↔ parts = tokens type :=
  ⟨eq_tokens, fun same => same ▸ tokenized_tokens type⟩

theorem flatMap_text (cut : Tokenized type parts) : parts.flatMap Token.text = type := by
  induction cut with
  | nil => rfl
  | name _ _ _ _ ih | comma _ _ _ ih | other _ _ _ ih => rw [List.flatMap_cons, ih]; rfl

end Tokenized

section Scanning

variable {letters gap rest : Text}

theorem shortFrom_letters (named : ∀ c ∈ letters, isNameChar c = true) (name rest : Text) :
    shortFrom name false (letters ++ rest) = shortFrom (name ++ letters) false rest := by
  induction letters generalizing name with
  | nil => rw [List.nil_append, List.append_nil]
  | cons c letters ih =>
    obtain ⟨first, more⟩ := List.forall_mem_cons.mp named
    rw [List.cons_append, shortFrom, if_pos first, ih more, List.append_assoc, List.singleton_append]

theorem shortFrom_gap (white : ∀ c ∈ gap, isWhite c = true) (name rest : Text) :
    shortFrom name true (gap ++ rest) = shortFrom name true rest := by
  induction gap with
  | nil => rfl
  | cons c gap ih =>
    obtain ⟨first, more⟩ := List.forall_mem_cons.mp white
    rw [List.cons_append, shortFrom, if_neg (by simp [isNameChar_of_isWhite first]), if_pos (by simp [first]), ih more]

theorem shortFrom_stop (stop : ∀ c ∈ rest.head?, isNameChar c = false) (name : Text) :
    shortFrom name false rest = lastPart (· == '.') name ++ shortFrom [] false rest := by
  cases rest with
  | nil => simp [shortFrom, lastPart]
  | cons c rest => simp [shortFrom, stop c rfl, lastPart]

theorem shortFrom_behind (stop : ∀ c ∈ rest.head?, isWhite c = false) (name : Text) :
    shortFrom name true rest = shortFrom name false rest := by
  cases rest with
  | nil => rfl
  | cons c rest => simp [shortFrom, stop c rfl]

end Scanning

namespace Tokenized

variable {type : Text} {parts : List Token}

theorem short_eq (cut : Tokenized type parts) : TypeName.short type = (parts.map Token.short).flatMap Token.text := by
  rw [TypeName.short]
  induction cut with
  | nil => rfl
  | name _ named stop _ ih =>
    rw [shortFrom_letters named, List.nil_append, shortFrom_stop stop, ih]
    rfl
  | @comma gap rest parts white stop _ ih =>
    have written : shortFrom [] false (',' :: gap ++ rest) = ',' :: ' ' :: shortFrom [] true (gap ++ rest) := rfl
    rw [written, shortFrom_gap white, shortFrom_behind stop, ih]
    rfl
  | @other c rest parts unnamed apart _ ih =>
    have written : shortFrom [] false (c :: rest) = c :: shortFrom [] false rest := by
      simp [shortFrom, unnamed, apart, lastPart]
    rw [written, ih]
    rfl

theorem dot_notMem (cut : Tokenized type parts) : '.' ∉ (parts.map Token.short).flatMap Token.text := by
  induction cut with
  | nil => exact List.not_mem_nil
  | name _ _ _ _ ih => exact List.not_mem_append (fun member => absurd (not_stops_of_mem_lastPart member) (by decide)) ih
  | comma _ _ _ ih => exact List.not_mem_append (show '.' ∉ [',', ' '] by decide) ih
  | other unnamed _ _ ih =>
    refine List.not_mem_cons_of_ne_of_not_mem ?_ ih
    rintro rfl
    exact absurd unnamed (by decide)

theorem exists_lastPart_cons {letters : Text} (started : letters ≠ []) (whole : (Token.name letters).Whole) :
    ∃ c more, lastPart (· == '.') letters = c :: more ∧ c ∈ letters := by
  have kept : lastPart (· == '.') letters ≠ [] := fun empty => by
    have last := List.getLast?_eq_some_getLast started
    have dot : letters.getLast started = '.' := by simpa using lastPart_eq_nil_iff.mp empty _ last
    exact whole (dot ▸ last)
  obtain ⟨c, more, split⟩ := List.exists_cons_of_ne_nil kept
  exact ⟨c, more, split, (lastPart_suffix _ letters).subset (split ▸ List.mem_cons_self)⟩

/-- As long as something is left of all names, what a part stopped before it stops before in the short form. Only the first
character counts for that, and whether it belongs to a name. -/
theorem stop_short (cut : Tokenized type parts) (whole : ∀ part ∈ parts, part.Whole) {p : Char → Bool}
    (level : ∀ c d, isNameChar c = true → isNameChar d = true → p c = p d) (stop : ∀ c ∈ type.head?, p c = false) :
    ∀ c ∈ ((parts.map Token.short).flatMap Token.text).head?, p c = false := by
  cases cut with
  | nil => exact stop
  | name started named _ _ =>
    obtain ⟨c, more, split, member⟩ := exists_lastPart_cons started (whole _ List.mem_cons_self)
    obtain ⟨d, letters, rfl⟩ := List.exists_cons_of_ne_nil started
    simpa [Token.text, Token.short, split, level c d (named c member) (named d List.mem_cons_self)] using stop
  | comma | other => exact stop

theorem map_short (cut : Tokenized type parts) (whole : ∀ part ∈ parts, part.Whole) :
    Tokenized ((parts.map Token.short).flatMap Token.text) (parts.map Token.short) := by
  induction cut with
  | nil => exact .nil
  | @name letters rest parts started named stop later ih =>
    obtain ⟨first, more⟩ := List.forall_mem_cons.mp whole
    obtain ⟨c, tail, split, -⟩ := exists_lastPart_cons started first
    have kept : lastPart (· == '.') letters ≠ [] := by
      rw [split]
      exact List.cons_ne_nil c tail
    refine .name kept (fun d member => named d ((lastPart_suffix _ letters).subset member)) ?_ (ih more)
    exact later.stop_short more (fun c d nameC nameD => nameC.trans nameD.symm) stop
  | @comma gap rest parts white stop later ih =>
    obtain ⟨-, more⟩ := List.forall_mem_cons.mp whole
    refine .comma (List.forall_mem_singleton.mpr (by decide)) ?_ (ih more)
    have level (c : Char) (named : isNameChar c = true) : isWhite c = false := by
      rw [Bool.eq_false_iff]
      exact fun white => absurd named (by simp [isNameChar_of_isWhite white])
    exact later.stop_short more (fun c d nameC nameD => (level c nameC).trans (level d nameD).symm) stop
  | other unnamed apart _ ih => exact .other unnamed apart (ih (List.forall_mem_cons.mp whole).2)

end Tokenized

/-- A type is made up of parts in one way only, with names as long as they can be and all white space behind the commas. The short
form has the short forms of the parts in their order, and no dot. Unless a name ends with a dot, shortening it again changes
nothing. -/
theorem short_parts (type : Text) :
    (∀ parts, Tokenized type parts ↔ parts = tokens type) ∧ (tokens type).flatMap Token.text = type ∧
    short type = ((tokens type).map Token.short).flatMap Token.text ∧ '.' ∉ short type ∧
    ((∀ part ∈ tokens type, part.Whole) → short (short type) = short type) := by
  have cut := tokenized_tokens type
  refine ⟨fun parts => Tokenized.iff_eq_tokens, cut.flatMap_text, cut.short_eq, cut.short_eq ▸ cut.dot_notMem, fun whole => ?_⟩
  have same : Token.short ∘ Token.short = Token.short := funext Token.short_short
  rw [cut.short_eq, (cut.map_short whole).short_eq, List.map_map, same]

/-- Nothing, or other white space than a blank, behind the commas. -/
theorem short_parts_spaced :
    let type := "b.C<D,,\t e.$F>".toList
    (∀ part ∈ tokens type, part.Whole) ∧ short (short type) = short type := by
  intro type
  have parts : tokens "b.C<D,,\t e.$F>".toList = [.name "b.C".toList, .other '<', .name ['D'], .comma [],
      .comma ['\t', ' '], .name "e.$F".toList, .other '>'] := by decide +kernel
  have whole : ∀ part ∈ tokens type, part.Whole := by
    rw [parts]
    decide
  exact ⟨whole, (short_parts type).2.2.2.2 whole⟩

/-- A name that ends with a dot leaves nothing between a comma and the white space behind the name. -/
example : short ",a. b".toList = ",  b".toList ∧ short ",  b".toList = ", b".toList := by decide

end TypeName
end Offside
