import Mathlib.Data.List.Nodup
import Offside.Proofs.Requests
import Offside.Proofs.Words

/-! Where the caret lands when a path is created. It stands at the end of what was put in: behind the colon of the last key,
on an empty line below that key, or behind the dash of a first entry there. -/
namespace Offside

open Text Character

theorem Line.read_ended {content : Text} (oneLine : '\n' ∉ content) (last : content.getLast? ≠ some '\r') (start : Nat)
    (br : LineBreak) (t : Text) : read start (content ++ br.text ++ t) =
      ⟨start, content, some br⟩ :: read (start + bytes (content ++ br.text)) t := by
  cases br with
  | lf =>
    have broken := read_break start t oneLine
    rw [ofTerminated_of_getLast? start last] at broken
    simpa [LineBreak.text, Nat.add_assoc] using broken
  | crlf =>
    have inner : '\n' ∉ content ++ ['\r'] := by simpa using oneLine
    have broken := read_break start t inner
    rw [ofTerminated_return] at broken
    simpa [LineBreak.text, Nat.add_assoc] using broken

theorem Line.Above.concat {start : Nat} {above content : Text} {lines : List Line} (h : Above start above lines)
    (oneLine : '\n' ∉ content) (last : content.getLast? ≠ some '\r') (br : LineBreak) :
    Above start (above ++ (content ++ br.text)) (lines ++ [⟨start + bytes above, content, some br⟩]) where
  reads t := by
    rw [List.append_assoc above, h.reads, read_ended oneLine last, bytes_append above, Nat.add_assoc]
    simp
  breaks := by
    cases br <;> simp [LineBreak.text, h.breaks, List.count_eq_zero.mpr oneLine]
  ended piece none := by
    cases br with
    | lf =>
      have behind := lastPart_break (above ++ content) piece
      rw [lastPart_of_notMem none] at behind
      simpa [LineBreak.text] using behind
    | crlf =>
      have behind := lastPart_break (above ++ content ++ ['\r']) piece
      rw [lastPart_of_notMem none] at behind
      simpa [LineBreak.text] using behind

theorem Line.Above.exists_cut {above content : Text} {lines : List Line} (h : Above 0 above lines) (oneLine : '\n' ∉ content)
    (last : content.getLast? ≠ some '\r') (tail : Tail) :
    ∃ l lower, (Document.mk (above ++ content ++ tail.text)).lines = lines ++ l :: lower ∧ l.content = content ∧
      Cut 0 (above ++ content ++ tail.text) lines l lower above tail := by
  obtain ⟨content', -, same, ending, reads⟩ := read_tail (0 + bytes above) tail oneLine
  obtain rfl := same last
  refine ⟨⟨0 + bytes above, content', ending⟩, tail.lines (0 + bytes above + bytes content'), ?_, rfl, rfl, h, rfl, oneLine, rfl⟩
  rw [Document.lines_eq, List.append_assoc, h.reads, reads]

section Frames

variable {above : List Item} {item : Item} {column right : Nat}

theorem enclosing_concat (container : item.kind.isContainer = true) (stands : item.kind.column? = some column)
    (further : column < right) : enclosing (closeTo right (openedAfter [] 1 (above ++ [item]))) = above.length + 1 := by
  have opened : openedAfter [] 1 (above ++ [item]) =
      ⟨above.length + 1, column⟩ :: closeTo column (openedAfter [] 1 above) := by
    rw [openedAfter_append, Nat.add_comm 1]
    simp [openedAfter, openedBy, stands, container]
  rw [opened, closeTo, List.dropWhile_cons_of_neg (by simpa using further)]
  rfl

theorem KeyRun.concat {path : KeyPath} {run : List Item} (h : KeyRun column path run) (key : Text) (colon start stop : Nat) :
    KeyRun column (path ++ [key]) (run ++ [⟨.key (column + indentStep * path.length) key colon, start, stop⟩]) := by
  induction path generalizing column run with
  | nil =>
    obtain rfl : run = [] := h
    exact ⟨colon, start, stop, [], rfl, rfl⟩
  | cons first path ih =>
    obtain ⟨colon', start', stop', rest, rfl, later⟩ := h
    refine ⟨colon', start', stop', _, rfl, ?_⟩
    have := ih later
    rwa [Nat.add_assoc, Nat.add_comm indentStep, ← Nat.mul_succ] at this

end Frames

theorem leadsToKey_spaces (n : Nat) : leadsToKey (spaces n) = true := by
  induction n with
  | zero => rfl
  | succ n ih => exact ih

theorem CaretPlace.of_colon (start : Nat) (t : Text) : of start (t ++ [':', ' ']) [] = .value (start + bytes t) := by
  have leads : leadsToKey (t ++ [':', ' ']) = false := by
    rw [Bool.eq_false_iff]
    intro leads
    have := letters_of_leadsToKey leads ':' (by simp)
    contradiction
  have settled : trimEnd (t ++ [':', ' ']) = t ++ [':'] := by
    simp [trimEnd, show isWhite ' ' = true by decide, show isWhite ':' = false by decide]
  simp [of, leads, settled]

namespace Document

variable {d : Document} {upper lower : List Line} {l : Line} {above : Text} {tail : Line.Tail}

theorem outline_eq_of_single (split : d.lines = upper ++ l :: lower) {item : Item} (single : l.items = [item]) :
    d.outline = .ofItems (upper.flatMap Line.items ++ item :: lower.flatMap Line.items) := by
  rw [outline_eq, Document.items, split]
  simp [single]

theorem context_stop (split : d.lines = upper ++ l :: lower) (column : Nat) : d.outline.context l.stop column =
    enclosing (closeTo column (openedAfter [] 1 ((upper ++ [l]).flatMap Line.items))) := by
  obtain ⟨-, below⟩ := apart_of_split split
  refine context_eq_of_items (items_of_split split) (fun item member visible => ?_) (fun item member _ => ?_) column
  · have := stop_le_of_mem split member
    obtain ⟨x, -, onLine⟩ := List.mem_flatMap.mp member
    have := Line.start_lt_stop onLine visible
    omega
  · obtain ⟨x, onLines, onLine⟩ := List.mem_flatMap.mp member
    have := below x onLines
    have := Line.bounds_of_mem_items onLine
    omega

/-- What is being typed at the end of a line, when no word has been begun. -/
theorem caretContext?_stop (cut : Line.Cut 0 d.text upper l lower above tail)
    (fresh : ∀ x ∈ l.content.getLast?, breaksWord x = true) :
    ∃ stop, d.caretContext? l.stop = some ⟨.of l.start l.content [], ⟨l.stop, stop⟩, [], l.length⟩ := by
  refine ⟨l.stop + bytes ((after d.text l.stop).takeWhile (!breaksWord ·)), ?_⟩
  replace fresh := lastPart_eq_nil_iff.mpr fresh
  unfold caretContext?
  rw [lineBefore_stop cut]
  simp [fresh, Line.stop, Line.length]

end Document

theorem Line.Above.exists_lastLine {key : Text} {keys : KeyPath} (plain : ∀ k ∈ key :: keys, k.IsPlainKey)
    (br : LineBreak) (column : Nat) {front : Text} {upper : List Line} (whole : Line.Above 0 front upper) :
    ∃ early last front' upper' run, key :: keys = early ++ [last] ∧ Line.Above 0 front' upper' ∧
      upper'.flatMap Line.items = upper.flatMap Line.items ++ run ∧ KeyRun column early run ∧
      ∀ value, front ++ (spaces column ++ grownText br column false (key :: keys) value) =
        front' ++ (spaces (column + indentStep * early.length) ++ last ++ colonPart value ++
          value.shiftLines (column + indentStep * early.length + indentStep)) := by
  -- The line of each key joins the whole lines above the next one.
  induction keys generalizing key column front upper with
  | nil =>
    refine ⟨[], key, front, upper, [], rfl, whole, by simp, rfl, fun value => ?_⟩
    rw [grownText_single]
    simp
  | cons next keys ih =>
    have plainKey := plain key List.mem_cons_self
    have oneLine : '\n' ∉ spaces column ++ key ++ [':'] := by
      simpa using notMem_keyLine column plainKey
    have further := whole.concat oneLine (by simp) br
    obtain ⟨-, item⟩ := Line.items_key (l := ⟨0 + bytes front, spaces column ++ key ++ [':'], some br⟩) plainKey rfl rfl
    obtain ⟨early, last, front', upper', run, eq, whole', items, keyRun, text⟩ :=
      ih (fun k member => plain k (List.mem_cons_of_mem _ member)) (column + indentStep) further
    have columns : column + indentStep * (key :: early).length = column + indentStep + indentStep * early.length := by
      rw [List.length_cons, Nat.mul_succ]
      omega
    refine ⟨key :: early, last, front', upper', (Line.mk (0 + bytes front) (spaces column ++ key ++ [':']) (some br)).item
      (.key column key (0 + bytes front + column + bytes key)) column :: run, by rw [eq]; rfl, whole', ?_,
      ⟨_, _, _, _, rfl, keyRun⟩, fun value => ?_⟩
    · rw [items, List.flatMap_append, List.flatMap_singleton, item, List.append_assoc]
      rfl
    · rw [columns, ← text value, grownText_cons]
      simp

namespace Document

/-- The line of the last key of a path that is missing from `d`. Whole lines stand above it, and the value comes behind its
colon, whatever it is. -/
structure LastKey (d : Document) (path : KeyPath) (front : Text) (upper : List Line) (column : Nat) (key : Text)
    (tail : Line.Tail) : Prop where
  whole : Line.Above 0 front upper
  plain : key.IsPlainKey
  last : path.getLast? = some key
  made : ∀ value, d.ensurePath path value =
    .ok (⟨front ++ (spaces column ++ key ++ colonPart value ++ value.shiftLines (column + indentStep)) ++ tail.text⟩,
      some (.caret (bytes (front ++ (spaces column ++ key ++ colonPart value ++ value.shiftLines (column + indentStep))))))
  resolves : ∀ colon start stop below,
    (Outline.ofItems (upper.flatMap Line.items ++ ⟨.key column key colon, start, stop⟩ :: below)).follow 0 path =
      ((upper.flatMap Line.items).length + 1, [])

theorem exists_lastKey_of_whole {d : Document} {path : KeyPath} {br : LineBreak} {column base : Nat} {front key : Text}
    {keys : KeyPath} {upper : List Line} {below : List Item} {tail : Line.Tail} (whole : Line.Above 0 front upper)
    (plain : ∀ k ∈ path, k.IsPlainKey)
    (followed : (Outline.ofItems (upper.flatMap Line.items ++ below)).follow 0 path = (base, key :: keys))
    (early : base ≤ (upper.flatMap Line.items).length)
    (container : enclosing (closeTo column (openedAfter [] 1 (upper.flatMap Line.items))) = base)
    (made : ∀ value, d.ensurePath path value =
      .ok (⟨front ++ (spaces column ++ grownText br column false (key :: keys) value) ++ tail.text⟩,
        some (.caret (bytes (front ++ (spaces column ++ grownText br column false (key :: keys) value)))))) :
    ∃ front' upper' column' key', d.LastKey path front' upper' column' key' tail := by
  have suffix := (Outline.follow_missing followed).1
  have plainMissing : ∀ k ∈ key :: keys, k.IsPlainKey := fun k member => plain k (suffix.mem member)
  obtain ⟨before, last, front', upper', run, split, whole', items, keyRun, text⟩ :=
    whole.exists_lastLine plainMissing br column
  refine ⟨front', upper', column + indentStep * before.length, last, whole', ?_, ?_, fun value => ?_,
    fun colon start stop below' => ?_⟩
  · exact plainMissing last (by rw [split]; simp)
  · obtain ⟨found, rfl⟩ := suffix
    rw [split, List.getLast?_append, List.getLast?_concat, Option.some_or]
  · rw [made, text]
  · have grown := keyRun.concat last colon start stop
    rw [← split] at grown
    have resolved : (Outline.ofItems (upper.flatMap Line.items ++ (run ++
        [⟨.key (column + indentStep * before.length) last colon, start, stop⟩] ++ []) ++ below')).follow 0 path = _ :=
      Outline.follow_graft grown (List.cons_ne_nil _ _) followed early container
    have length := congrArg List.length split
    rw [List.length_append, List.length_singleton] at length
    rw [items, List.length_append, keyRun.length, Nat.add_assoc, ← length, ← resolved]
    simp

/-- A missing path has its last key behind the block of the node where the path ends, or at the start of a document
without text. -/
theorem exists_lastKey {d : Document} {path : KeyPath}
    (form : d = ⟨[]⟩ ∨ (∃ l ∈ d.lines, l.Written) ∧ d.NoReturns ∧ d.outline.Spaced)
    (plain : ∀ k ∈ path, k.IsPlainKey) (missing : (d.outline.follow 0 path).2 ≠ []) :
    ∃ front upper column key tail, d.LastKey path front upper column key tail := by
  rcases form with rfl | ⟨written, noReturns, spaced⟩
  · cases path with
    | nil => exact absurd rfl missing
    | cons key keys =>
      obtain ⟨front, upper, column, last, lastKey⟩ := @exists_lastKey_of_whole ⟨[]⟩ (key :: keys) .lf 0 0 [] key keys []
        (Document.mk []).items none (Line.above_nil 0) plain rfl (Nat.le_refl 0) rfl fun value => by
          rw [ensurePath_empty]
          simp [spaces, Line.Tail.text]
      exact ⟨front, upper, column, last, none, lastKey⟩
  · obtain ⟨⟨base, rest⟩, followed⟩ : ∃ p, d.outline.follow 0 path = p := ⟨_, rfl⟩
    rw [followed] at missing
    obtain ⟨key, keys, rfl⟩ := List.exists_cons_of_ne_nil missing
    obtain ⟨n, found, hosts⟩ := hosts_follow followed
    obtain ⟨upper, l, lower, ends⟩ := exists_blockEnds found hosts.isContainer written
    obtain ⟨above, tail, cut⟩ := exists_cut ends.split
    have last : l.content.getLast? ≠ some '\r' := noReturns l (by rw [ends.split]; simp)
    -- The line where the block ends is given the break that comes before the new key, so it is whole as well.
    have whole := cut.whole.concat cut.oneLine last d.lineBreak
    have items : (upper ++ [Line.mk (0 + bytes above) l.content (some d.lineBreak)]).flatMap Line.items =
        (upper ++ [l]).flatMap Line.items := by
      rw [List.flatMap_append, List.flatMap_append, List.flatMap_singleton, List.flatMap_singleton, ← cut.begins,
        Line.items_at, Line.items_at l.start l.content l.ending]
    have container := ends.container found hosts spaced
    have reads := followed
    rw [outline_eq, items_of_split ends.split, ← items] at reads
    rw [← items] at container
    have made (value : Text) : d.ensurePath path value = .ok
        (⟨above ++ (l.content ++ d.lineBreak.text) ++ (spaces (d.outline.childColumn base) ++
          grownText d.lineBreak (d.outline.childColumn base) false (key :: keys) value) ++ tail.text⟩,
        some (.caret (bytes (above ++ (l.content ++ d.lineBreak.text) ++ (spaces (d.outline.childColumn base) ++
          grownText d.lineBreak (d.outline.childColumn base) false (key :: keys) value))))) := by
      rw [ends.ensurePath_eq found hosts.isContainer followed, before_stop cut, after_stop cut, grownText_fresh,
        cut.stop_eq]
      simp [bytes_append, Nat.add_assoc]
    obtain ⟨front, upper', column, last, lastKey⟩ :=
      exists_lastKey_of_whole whole plain reads (items ▸ ends.inside) container made
    exact ⟨front, upper', column, last, tail, lastKey⟩

/-- Once `path` is made with `value`, the caret stands at `caret`, and the key that the path resolves to is `n`, with the
number `i`. -/
structure Lands (d : Document) (path : KeyPath) (value : Text) (d' : Document) (caret i : Nat) (n : Node) : Prop where
  made : d.ensurePath path value = .ok (d', some (.caret caret))
  resolves : d'.outline.follow 0 path = (i, [])
  found : d'.outline.nodes[i]? = some n
  name : n.kind.name? = path.getLast?

namespace LastKey

variable {d d' : Document} {path : KeyPath} {front key value rest : Text} {upper lower : List Line} {l : Line}
  {column caret : Nat} {tail : Line.Tail}

theorem lands (h : d.LastKey path front upper column key tail)
    (made : d.ensurePath path value = .ok (d', some (.caret caret))) (split : d'.lines = upper ++ l :: lower)
    (content : l.content = spaces column ++ key ++ ':' :: rest) (separate : separates rest = true) :
    ∃ n, d.Lands path value d' caret ((upper.flatMap Line.items).length + 1) n ∧
      n.kind = .key column key (l.start + column + bytes key) := by
  obtain ⟨-, item⟩ := Line.items_key h.plain content separate
  have outline := outline_eq_of_single split item
  have found := Outline.getElem?_ofItems_append (upper.flatMap Line.items) (lower.flatMap Line.items)
    (l.item (.key column key (l.start + column + bytes key)) column)
  rw [← outline] at found
  refine ⟨_, ⟨made, ?_, found, h.last.symm⟩, rfl⟩
  rw [outline]
  exact h.resolves _ _ _ _

theorem lands_value (h : d.LastKey path front upper column key tail) :
    ∃ d' caret i n c, d.Lands path [' '] d' caret i n ∧ d'.caretContext? caret = some c ∧ c.query = [] ∧
      ∃ colon, n.kind.colon? = some colon ∧ c.place = .value colon := by
  have oneLine : '\n' ∉ spaces column ++ key ++ [':', ' '] := by simpa using notMem_keyLine column h.plain
  obtain ⟨l, lower, split, content, cut⟩ := h.whole.exists_cut oneLine (by simp) tail
  have text : spaces column ++ key ++ colonPart [' '] ++ Text.shiftLines [' '] (column + indentStep) =
      spaces column ++ key ++ [':', ' '] := by
    rw [Text.shiftLines_of_notMem (by decide), List.append_assoc]
    rfl
  have made := h.made [' ']
  rw [text, ← content, ← cut.stop_eq, content] at made
  obtain ⟨n, lands, kind⟩ := h.lands made split content rfl
  obtain ⟨stop, context⟩ := caretContext?_stop cut (by rw [content]; simp; decide)
  refine ⟨_, _, _, n, _, lands, context, rfl, l.start + column + bytes key, by rw [kind]; rfl, ?_⟩
  rw [content, CaretPlace.of_colon]
  simp [Nat.add_assoc]

/-- Behind a line feed, the caret stands at the end of the line below the key. What stands right of the key there belongs
to it. -/
theorem exists_below (h : d.LastKey path front upper column key tail) {t : Text} (oneLine : '\n' ∉ t)
    (last : t.getLast? ≠ some '\r') :
    ∃ d' i n upper' l lower above, d.Lands path ('\n' :: t) d' l.stop i n ∧ d'.lines = upper' ++ l :: lower ∧
      Line.Cut 0 d'.text upper' l lower above tail ∧ l.content = spaces (column + indentStep) ++ t ∧
      ∀ right, column < right → enclosing (closeTo right (openedAfter [] 1 (upper'.flatMap Line.items))) = i := by
  have keyLine : '\n' ∉ spaces column ++ key ++ [':'] := by simpa using notMem_keyLine column h.plain
  have whole := h.whole.concat keyLine (by simp) .lf
  have below : '\n' ∉ spaces (column + indentStep) ++ t := by simp [spaces, oneLine]
  have ends : (spaces (column + indentStep) ++ t).getLast? ≠ some '\r' := by
    rw [List.getLast?_append]
    cases t with
    | nil => simp [spaces, List.getLast?_replicate]
    | cons c t => simpa using last
  obtain ⟨l, lower, split, content, cut⟩ := whole.exists_cut below ends tail
  have text : spaces column ++ key ++ colonPart ('\n' :: t) ++ Text.shiftLines ('\n' :: t) (column + indentStep) =
      spaces column ++ key ++ [':'] ++ LineBreak.lf.text ++ (spaces (column + indentStep) ++ t) := by
    have shifted := Text.shiftLines_break t (column + indentStep) (List.not_mem_nil (a := '\n'))
    rw [Text.shiftLines_of_notMem oneLine, List.nil_append] at shifted
    rw [shifted]
    simp [colonPart, LineBreak.text, show isWhite '\n' = true by decide]
  have made := h.made ('\n' :: t)
  rw [text, ← List.append_assoc front, ← content, ← cut.stop_eq, content] at made
  obtain ⟨-, item⟩ := Line.items_key (l := ⟨0 + bytes front, spaces column ++ key ++ [':'], some .lf⟩) h.plain rfl rfl
  obtain ⟨n, lands, -⟩ := h.lands made (split.trans (List.append_cons _ _ _).symm) rfl rfl
  refine ⟨_, _, n, _, l, lower, _, lands, split, cut, content, fun right further => ?_⟩
  rw [List.flatMap_append, List.flatMap_singleton, item]
  exact enclosing_concat rfl rfl further

theorem lands_key (h : d.LastKey path front upper column key tail) :
    ∃ d' caret i n c, d.Lands path ['\n'] d' caret i n ∧ d'.caretContext? caret = some c ∧ c.query = [] ∧
      c.place = .key ∧ d'.outline.context c.word.start c.column = i := by
  obtain ⟨d', i, n, upper', l, lower, above, lands, split, cut, content, inside⟩ :=
    h.exists_below (t := []) (by simp) (by simp)
  rw [List.append_nil] at content
  have fresh : ∀ x ∈ l.content.getLast?, breaksWord x = true := by
    intro x last
    obtain rfl : x = ' ' := List.eq_of_mem_replicate (content ▸ List.mem_of_getLast? last)
    decide
  obtain ⟨stop, context⟩ := caretContext?_stop cut fresh
  have length : l.length = column + indentStep := by rw [Line.length, content, bytes_spaces]
  refine ⟨d', l.stop, i, n, _, lands, context, rfl, ?_, ?_⟩
  · rw [content]
    simp [CaretPlace.of, leadsToKey_spaces]
  · dsimp only
    rw [Line.stop, length, context_eq_of_content split (content.trans (List.append_nil _).symm)]
    exact inside _ (by simp [indentStep])

theorem lands_entry (h : d.LastKey path front upper column key tail) :
    ∃ d' caret i n line column' entry, d.Lands path ['\n', '-', ' '] d' caret i n ∧
      d'.position caret = .ok (line, column') ∧
      d'.outline.nodes[d'.outline.context caret column']? = some entry ∧
      (∃ dash, entry.kind = .entry dash) ∧ entry.parent = some i := by
  obtain ⟨d', i, n, upper', l, lower, above, lands, split, cut, content, inside⟩ :=
    h.exists_below (t := ['-', ' ']) (by simp) (by simp)
  have position : d'.position l.stop = .ok (upper'.length, l.length) := by
    rw [position, lineOf_stop cut, lineBefore_stop cut]
    rfl
  have length : l.length = column + indentStep + 2 := by rw [Line.length, content, bytes_append, bytes_spaces]; rfl
  have indented : Text.indentation l.content = some (column + indentStep) := by
    rw [content, indentation_spaces]
    exact congrArg some (Nat.zero_add _)
  have entry : l.items = [l.item (.entry (column + indentStep)) (column + indentStep)] := Line.items_written content indented
  have inEntry : d'.outline.context l.stop l.length = (upper'.flatMap Line.items).length + 1 := by
    rw [context_stop split, List.flatMap_append, List.flatMap_singleton, entry]
    exact enclosing_concat rfl rfl (by omega)
  have found := Outline.getElem?_ofItems_append (upper'.flatMap Line.items) (lower.flatMap Line.items)
    (l.item (.entry (column + indentStep)) (column + indentStep))
  rw [← outline_eq_of_single split entry, ← inEntry] at found
  refine ⟨d', l.stop, i, n, upper'.length, l.length, _, lands, position, found, ⟨_, rfl⟩, ?_⟩
  exact congrArg some (inside _ (by simp [indentStep]))

end LastKey

/-- With a space put in behind the colon, a value is typed at that colon. With a line feed, a key is typed below the new
key, and with a dash behind the line feed, the caret stands in an entry of it. -/
theorem ensurePath_lands {d : Document} {path : KeyPath}
    (form : d = ⟨[]⟩ ∨ (∃ l ∈ d.lines, l.Written) ∧ d.NoReturns ∧ d.outline.Spaced)
    (plain : ∀ k ∈ path, k.IsPlainKey) (missing : (d.outline.follow 0 path).2 ≠ []) :
    (∃ d' caret i n c, d.Lands path [' '] d' caret i n ∧ d'.caretContext? caret = some c ∧ c.query = [] ∧
      ∃ colon, n.kind.colon? = some colon ∧ c.place = .value colon) ∧
    (∃ d' caret i n c, d.Lands path ['\n'] d' caret i n ∧ d'.caretContext? caret = some c ∧ c.query = [] ∧
      c.place = .key ∧ d'.outline.context c.word.start c.column = i) ∧
    ∃ d' caret i n line column entry, d.Lands path ['\n', '-', ' '] d' caret i n ∧
      d'.position caret = .ok (line, column) ∧ d'.outline.nodes[d'.outline.context caret column]? = some entry ∧
      (∃ dash, entry.kind = .entry dash) ∧ entry.parent = some i := by
  obtain ⟨front, upper, column, key, tail, lastKey⟩ := exists_lastKey form plain missing
  exact ⟨lastKey.lands_value, lastKey.lands_key, lastKey.lands_entry⟩

/-- A path of which the beginning is there, above a comment and another key. -/
theorem ensurePath_lands_nested :
    let made : Document := ⟨"a:\n  b: 1\n  e:\n    f:\n      \n\n# c\nd:\n  - x: 1\n".toList⟩
    ∃ i c, made.outline.follow 0 ["a".toList, "e".toList, "f".toList] = (i, []) ∧ made.caretContext? 28 = some c ∧
      c.query = [] ∧ c.place = .key ∧ made.outline.context c.word.start c.column = i := by
  obtain ⟨-, ⟨d', caret, i, n, c, lands, context, query, place, inside⟩, -⟩ :=
    @ensurePath_lands ⟨"a:\n  b: 1\n\n# c\nd:\n  - x: 1\n".toList⟩ ["a".toList, "e".toList, "f".toList]
      (.inr ⟨by decide, by decide, by decide⟩) (by decide) (by decide)
  have made : (Document.mk "a:\n  b: 1\n\n# c\nd:\n  - x: 1\n".toList).ensurePath
      ["a".toList, "e".toList, "f".toList] ['\n'] = .ok
        (⟨"a:\n  b: 1\n  e:\n    f:\n      \n\n# c\nd:\n  - x: 1\n".toList⟩, some (.caret 28)) :=
    @ensurePath_of_insert _ _ _ "\n  e:\n    f:\n      ".toList 9 (by decide +kernel) (by decide)
  obtain ⟨rfl, same⟩ := Prod.mk.inj (Except.ok.inj (lands.made.symm.trans made))
  obtain rfl : caret = 28 := congrArg Selection.offset (Option.some.inj same)
  exact ⟨i, c, lands.resolves, context, query, place, inside⟩

end Document

end Offside
