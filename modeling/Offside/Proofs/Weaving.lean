import Mathlib.Algebra.GroupWithZero.Nat
import Offside.Proofs.Consistency

/-! Replacements as one pass over the text from left to right. They are made from the back, each on what the later ones
have left, and the outcome is the text with their ranges dropped and their texts put in. The caret is carried along. -/
namespace Offside

open Text

/-- Reads a text that begins at `offset` once. At every offset what is put in there comes first, and then the character that
stands there, unless it is dropped. -/
def Text.weave (written : Nat → Text) (dropped : Nat → Bool) (offset : Nat) : Text → Text
  | [] => written offset
  | c :: rest => written offset ++ (if dropped offset then [] else [c]) ++ weave written dropped (offset + c.utf8Size) rest

namespace Text

variable {written written' : Nat → Text} {dropped dropped' : Nat → Bool} {offset : Nat}

theorem weave_congr {t : Text} (same : ∀ n, offset ≤ n → written n = written' n ∧ dropped n = dropped' n) :
    weave written dropped offset t = weave written' dropped' offset t := by
  induction t generalizing offset with
  | nil => exact (same offset (Nat.le_refl _)).1
  | cons c t ih =>
    obtain ⟨eq, eq'⟩ := same offset (Nat.le_refl _)
    rw [weave, weave, eq, eq', ih fun n later => same n (Nat.le_trans (Nat.le_add_right _ _) later)]

theorem weave_untouched {u v : Text}
    (untouched : ∀ n, offset ≤ n → n < offset + bytes u → written n = [] ∧ dropped n = false) :
    weave written dropped offset (u ++ v) = u ++ weave written dropped (offset + bytes u) v := by
  induction u generalizing offset with
  | nil => rfl
  | cons c u ih =>
    have := c.utf8Size_pos
    simp only [bytes_cons] at untouched ⊢
    obtain ⟨nothing, stays⟩ := untouched offset (Nat.le_refl _) (by omega)
    rw [List.cons_append, weave, nothing, stays, ih fun n later less => untouched n (by omega) (by omega)]
    simp [Nat.add_assoc]

theorem weave_dropped {u v : Text}
    (gone : ∀ n, offset ≤ n → n < offset + bytes u → written n = [] ∧ dropped n = true) :
    weave written dropped offset (u ++ v) = weave written dropped (offset + bytes u) v := by
  induction u generalizing offset with
  | nil => rfl
  | cons c u ih =>
    have := c.utf8Size_pos
    simp only [bytes_cons] at gone ⊢
    obtain ⟨nothing, drops⟩ := gone offset (Nat.le_refl _) (by omega)
    rw [List.cons_append, weave, nothing, drops, ih fun n later less => gone n (by omega) (by omega)]
    simp [Nat.add_assoc]

theorem weave_first {more t : Text} (first : written offset = more ++ written' offset)
    (later : ∀ n, offset < n → written n = written' n) (same : ∀ n, offset ≤ n → dropped n = dropped' n) :
    weave written dropped offset t = more ++ weave written' dropped' offset t := by
  cases t with
  | nil => exact first
  | cons c t =>
    have := c.utf8Size_pos
    have rest : weave written dropped (offset + c.utf8Size) t = weave written' dropped' (offset + c.utf8Size) t :=
      weave_congr fun n behind => ⟨later n (by omega), same n (by omega)⟩
    rw [weave, weave, first, same offset (Nat.le_refl _), rest]
    simp

theorem exists_weave_eq (written : Nat → Text) (dropped : Nat → Bool) (offset : Nat) (t : Text) :
    ∃ front, weave written dropped offset t = front ++ written (offset + bytes t) := by
  induction t generalizing offset with
  | nil => exact ⟨[], rfl⟩
  | cons c t ih =>
    obtain ⟨front, eq⟩ := ih (offset + c.utf8Size)
    rw [Nat.add_assoc] at eq
    exact ⟨_, by rw [weave, eq, bytes_cons, ← List.append_assoc]⟩

theorem exists_weave_append (written : Nat → Text) (dropped : Nat → Bool) (offset : Nat) (u v : Text) :
    ∃ back, weave written dropped offset (u ++ v) = weave written dropped offset u ++ back := by
  induction u generalizing offset with
  | nil =>
    cases v with
    | nil => exact ⟨[], (List.append_nil _).symm⟩
    | cons c v => exact ⟨_, List.append_assoc _ _ _⟩
  | cons c u ih =>
    obtain ⟨back, eq⟩ := ih (offset + c.utf8Size)
    exact ⟨back, by rw [List.cons_append, weave, weave, eq, ← List.append_assoc]⟩

end Text

namespace Splice

def written (splices : List Splice) (offset : Nat) : Text :=
  splices.flatMap fun s => if s.start = offset then s.text else []

def drops (splices : List Splice) (offset : Nat) : Bool := splices.any fun s => s.start ≤ offset && offset < s.stop

def Pure (s : Splice) : Prop := s.start = s.stop ∨ s.text = []

variable {s : Splice} {splices : List Splice} {reached offset : Nat}

theorem written_cons (s : Splice) (splices : List Splice) (offset : Nat) :
    written (s :: splices) offset = (if s.start = offset then s.text else []) ++ written splices offset :=
  List.flatMap_cons

theorem drops_cons (s : Splice) (splices : List Splice) (offset : Nat) :
    drops (s :: splices) offset = ((s.start ≤ offset && offset < s.stop) || drops splices offset) :=
  List.any_cons

theorem written_eq_nil (behind : ∀ s ∈ splices, offset < s.start) : written splices offset = [] := by
  rw [written, List.flatMap_eq_nil_iff]
  intro s member
  exact if_neg (Nat.ne_of_gt (behind s member))

theorem drops_eq_false (behind : ∀ s ∈ splices, offset < s.start) : drops splices offset = false := by
  rw [drops, List.any_eq_false]
  intro s member
  have := behind s member
  simp
  omega

/-- A first replacement keeps what comes before it and puts its text in the place of its range. -/
theorem weave_cons {b c y : Text} (chained : Chained reached (s :: splices)) (start : s.start = reached + bytes b)
    (stop : s.stop = s.start + bytes c) :
    weave (written (s :: splices)) (drops (s :: splices)) reached (b ++ c ++ y) =
      b ++ s.text ++ weave (written splices) (drops splices) s.stop y := by
  have later := chained.2.2.le_start
  have before : ∀ n, reached ≤ n → n < reached + bytes b →
      written (s :: splices) n = [] ∧ drops (s :: splices) n = false := by
    intro n _ less
    have behind : ∀ s' ∈ s :: splices, n < s'.start := by
      intro s' member
      have := (List.forall_mem_cons (p := fun s' => s.start ≤ s'.start)).mpr
        ⟨Nat.le_refl _, fun x inRest => Nat.le_trans (by omega) (later x inRest)⟩ s' member
      omega
    exact ⟨written_eq_nil behind, drops_eq_false behind⟩
  have apart (n : Nat) (behind : s.start < n) (stop : s.stop ≤ n) :
      written (s :: splices) n = written splices n ∧ drops (s :: splices) n = drops splices n := by
    rw [written_cons, drops_cons, if_neg (Nat.ne_of_lt behind)]
    simp [Nat.not_lt.mpr stop]
  rw [List.append_assoc, weave_untouched before, ← start, List.append_assoc]
  congr 1
  cases c with
  | nil =>
    -- An insertion: what the others put in at this offset comes behind it.
    have here : s.stop = s.start := stop
    rw [here, List.nil_append]
    apply weave_first
    · rw [written_cons, if_pos rfl]
    · intro n behind
      exact (apart n behind (by omega)).1
    · intro n le
      rw [drops_cons]
      simp [here, Nat.not_lt.mpr le]
  | cons x c =>
    have := x.utf8Size_pos
    rw [bytes_cons] at stop
    have alone : written (s :: splices) s.start = s.text := by
      rw [written_cons, if_pos rfl, written_eq_nil fun s' member => Nat.lt_of_lt_of_le (by omega) (later s' member),
        List.append_nil]
    have first : drops (s :: splices) s.start = true := by
      rw [drops_cons]
      simp
      omega
    have gone : ∀ n, s.start + x.utf8Size ≤ n → n < s.start + x.utf8Size + bytes c →
        written (s :: splices) n = [] ∧ drops (s :: splices) n = true := by
      intro n le less
      rw [written_cons, if_neg (by omega), written_eq_nil fun s' member => Nat.lt_of_lt_of_le (by omega) (later s' member),
        drops_cons]
      simp
      omega
    rw [List.cons_append, weave, alone, first, weave_dropped gone, Nat.add_assoc, ← stop,
      weave_congr fun n le => apart n (by omega) le]
    simp

theorem exists_range {t a x : Text} (text : t = a ++ x) (later : bytes a ≤ s.start) (ordered : s.start ≤ s.stop)
    (start : Boundary t s.start) (stop : Boundary t s.stop) :
    ∃ b c y, x = b ++ c ++ y ∧ s.start = bytes (a ++ b) ∧ s.stop = bytes (a ++ b ++ c) := by
  subst text
  obtain ⟨b, rest, rfl, begins⟩ := exists_of_boundary_behind start later
  rw [← List.append_assoc] at stop
  obtain ⟨c, y, rfl, ends⟩ := exists_of_boundary_behind stop (begins ▸ ordered)
  exact ⟨b, c, y, by simp, begins.symm, ends.symm⟩

/-- Made from the back, sorted replacements give what one pass from the front gives. -/
theorem foldr_apply_eq_weave {t a x : Text} (text : t = a ++ x) (chained : Chained (bytes a) splices)
    (boundaries : ∀ s ∈ splices, Boundary t s.start ∧ Boundary t s.stop) :
    splices.foldr apply t = a ++ weave (written splices) (drops splices) (bytes a) x := by
  induction splices generalizing a x with
  | nil =>
    have := @weave_untouched (written []) (drops []) (bytes a) x [] fun _ _ _ => ⟨rfl, rfl⟩
    rw [List.append_nil] at this
    simp [this, text, weave, written]
  | cons s splices ih =>
    obtain ⟨⟨start, stop⟩, others⟩ := List.forall_mem_cons.mp boundaries
    obtain ⟨b, c, y, rfl, begins, ends⟩ := exists_range text chained.1 chained.2.1 start stop
    have rest := ih (a := a ++ b ++ c) (by simpa using text) (ends ▸ chained.2.2) others
    rw [weave_cons chained (by rw [begins, bytes_append]) (by rw [begins, ends, bytes_append (a ++ b)]), List.foldr_cons,
      rest, apply_eq s rfl begins ends, ← ends]
    simp

/-- What replacements put in up to a place, in bytes. -/
def insertedUpTo (splices : List Splice) (place : Nat) : Nat :=
  (splices.map fun s => if s.start ≤ place then bytes s.text else 0).sum

/-- What replacements take away before a place, in bytes. -/
def deletedBefore (splices : List Splice) (place : Nat) : Nat :=
  (splices.map fun s => min s.stop place - s.start).sum

theorem Chained.foldr_rebase_of_lt {caret : Nat} (h : Chained reached splices) (less : caret < reached) :
    splices.foldr rebase caret = caret := by
  induction splices generalizing reached with
  | nil => rfl
  | cons s splices ih =>
    obtain ⟨later, ordered, rest⟩ := h
    rw [List.foldr_cons, ih rest (by omega), rebase, if_neg (by omega), if_neg (by omega)]

theorem Chained.le_rebase {caret : Nat} (h : Chained reached splices) (le : reached ≤ caret) :
    reached ≤ splices.foldr rebase caret := by
  induction splices generalizing reached with
  | nil => exact le
  | cons s splices ih =>
    obtain ⟨later, ordered, rest⟩ := h
    rw [List.foldr_cons, rebase]
    by_cases passed : s.stop ≤ caret
    · have := ih rest passed
      rw [if_pos this]
      omega
    · rw [rest.foldr_rebase_of_lt (Nat.not_le.mp passed), if_neg passed]
      split
      · exact later
      · exact le

theorem Chained.outside {s' : Splice} (h : Chained reached splices) (member : s ∈ splices) (member' : s' ∈ splices) :
    ¬(s'.start < s.start ∧ s.start < s'.stop) := by
  induction splices generalizing reached with
  | nil => contradiction
  | cons first rest ih =>
    obtain ⟨-, ordered, chained⟩ := h
    rcases List.mem_cons.mp member with rfl | inRest <;> rcases List.mem_cons.mp member' with rfl | inRest'
    · omega
    · have := chained.le_start s' inRest'
      omega
    · have := chained.le_start s inRest
      omega
    · exact ih chained inRest inRest'

/-- A caret within a range falls back to its start, and goes on from there. -/
theorem foldr_rebase_within {caret : Nat} (chained : Chained reached splices) (member : s ∈ splices)
    (start : s.start < caret) (stop : caret < s.stop) : splices.foldr rebase caret = splices.foldr rebase s.start := by
  induction splices generalizing reached with
  | nil => contradiction
  | cons s' splices ih =>
    obtain ⟨-, -, rest⟩ := chained
    rw [List.foldr_cons, List.foldr_cons]
    rcases List.mem_cons.mp member with rfl | member
    · rw [rest.foldr_rebase_of_lt stop, rest.foldr_rebase_of_lt (by omega), rebase, rebase, if_neg (by omega),
        if_pos start, if_neg (by omega), if_neg (by omega)]
    · rw [ih rest member]

/-- Outside all ranges, a caret moves on by what is put in up to it and back by what is taken away before it. -/
theorem foldr_rebase_add {place : Nat} (chained : Chained reached splices) (kinds : ∀ s ∈ splices, s.Pure)
    (outside : ∀ s ∈ splices, ¬(s.start < place ∧ place < s.stop)) :
    splices.foldr rebase place + deletedBefore splices place = place + insertedUpTo splices place := by
  induction splices generalizing reached with
  | nil => rfl
  | cons s splices ih =>
    obtain ⟨-, ordered, rest⟩ := chained
    obtain ⟨kind, kinds⟩ := List.forall_mem_cons.mp kinds
    obtain ⟨here, outside⟩ := List.forall_mem_cons.mp outside
    have others := ih rest kinds outside
    rw [deletedBefore, insertedUpTo, List.map_cons, List.map_cons, List.sum_cons, List.sum_cons, List.foldr_cons,
      ← deletedBefore, ← insertedUpTo, rebase]
    by_cases passed : s.stop ≤ place
    · have := rest.le_rebase passed
      rw [if_pos this, if_pos (by omega)]
      omega
    · have still := rest.foldr_rebase_of_lt (Nat.not_le.mp passed)
      have nothing : s.start ≤ place → bytes s.text = 0 := by
        intro le
        rcases kind with empty | empty
        · omega
        · rw [empty]; rfl
      rw [still] at others ⊢
      rw [if_neg passed, if_neg (by omega)]
      split
      next le => rw [nothing le]; omega
      next => omega

theorem foldr_rebase_eq_bytes {t a u v : Text} (text : t = a ++ u ++ v) (chained : Chained (bytes a) splices)
    (kinds : ∀ s ∈ splices, s.Pure) (boundaries : ∀ s ∈ splices, Boundary t s.start ∧ Boundary t s.stop)
    (outside : ∀ s ∈ splices, ¬(s.start < bytes (a ++ u) ∧ bytes (a ++ u) < s.stop)) :
    splices.foldr rebase (bytes (a ++ u)) =
      bytes (a ++ weave (written splices) (drops splices) (bytes a) u) := by
  induction splices generalizing a u with
  | nil =>
    have := @weave_untouched (written []) (drops []) (bytes a) u [] fun _ _ _ => ⟨rfl, rfl⟩
    rw [List.append_nil] at this
    simp [this, weave, written]
  | cons s splices ih =>
    obtain ⟨kind, kinds⟩ := List.forall_mem_cons.mp kinds
    obtain ⟨⟨start, stop⟩, boundaries⟩ := List.forall_mem_cons.mp boundaries
    obtain ⟨here, outside⟩ := List.forall_mem_cons.mp outside
    rw [List.foldr_cons, rebase]
    by_cases passed : s.stop ≤ bytes (a ++ u)
    · have inside (n : Nat) (boundary : Boundary t n) (le : n ≤ bytes (a ++ u)) : Boundary (a ++ u) n := by
        rw [text] at boundary
        obtain ⟨x, y, split, rfl⟩ := exists_of_boundary_append boundary le
        exact boundary_left split
      obtain ⟨b, c, u, rfl, begins, ends⟩ := exists_range rfl chained.1 chained.2.1
        (inside s.start start (Nat.le_trans chained.2.1 passed)) (inside s.stop stop passed)
      have behind : a ++ (b ++ c ++ u) = a ++ b ++ c ++ u := by simp
      have rest := ih (a := a ++ b ++ c) (u := u) (by rw [text, behind]) (ends ▸ chained.2.2) kinds boundaries
        (by rwa [behind] at outside)
      rw [behind] at passed ⊢
      have := chained.2.2.le_rebase passed
      rw [weave_cons chained (by rw [begins, bytes_append]) (by rw [begins, ends, bytes_append (a ++ b)]),
        if_pos this, rest, ends, begins]
      simp only [bytes_append]
      omega
    · have later := chained.2.2.le_start
      have still := chained.2.2.foldr_rebase_of_lt (Nat.not_le.mp passed)
      have behind : bytes (a ++ u) ≤ s.start := by omega
      rw [bytes_append] at passed behind
      have untouched : ∀ n, bytes a ≤ n → n < bytes a + bytes u →
          written (s :: splices) n = [] ∧ drops (s :: splices) n = false := by
        intro n _ less
        have all : ∀ s' ∈ s :: splices, n < s'.start := List.forall_mem_cons.mpr
          ⟨by omega, fun s' member => by have := later s' member; omega⟩
        exact ⟨written_eq_nil all, drops_eq_false all⟩
      have last : written (s :: splices) (bytes a + bytes u) = [] := by
        rw [written_cons, written_eq_nil fun s' member => by have := later s' member; omega, List.append_nil]
        split
        next at' => exact kind.resolve_left (by omega)
        next => rfl
      have woven := @weave_untouched _ _ (bytes a) u [] untouched
      rw [List.append_nil, weave, last, List.append_nil] at woven
      rw [still, if_neg (by rwa [bytes_append]), if_neg (by rw [bytes_append]; omega), woven]

end Splice
end Offside
