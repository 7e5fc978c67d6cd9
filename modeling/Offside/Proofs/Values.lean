import Offside.Proofs.KeyLines
import Offside.Proofs.Replacements

/-! Completed values. A value takes the place of the word behind a colon. The key before the colon stays if a blank is there
already, or if the value itself begins with one. -/
namespace Offside

open Text Character

theorem CaretPlace.exists_of_value {start colon : Nat} {lead query : Text} (place : of start lead query = .value colon) :
    ∃ front gap, lead = front ++ ':' :: gap ∧ isBlank gap = true ∧ colon = start + bytes front := by
  obtain ⟨ends, offset⟩ := of_eq_value place
  obtain ⟨gap, split, blank⟩ := exists_trimEnd lead
  obtain ⟨front, settled⟩ := List.getLast?_eq_some_iff.mp ends
  rw [settled, bytes_append, bytes_cons, utf8Size_colon, bytes_nil] at offset
  refine ⟨front, gap, ?_, blank, by omega⟩
  rw [split, settled, List.append_assoc]
  rfl

theorem Outline.hasKey_of_keyAtColon? {o : Outline} {colon i : Nat} {path : KeyPath} (found : o.keyAtColon? colon = some i)
    (reached : o.keyPath? i = some path) : o.HasKey colon path := by
  obtain ⟨bound, at', -⟩ := List.findIdx?_eq_some_iff_getElem.mp found
  exact ⟨i, o.nodes[i], List.getElem?_eq_getElem bound, by simpa using at', reached⟩

/-- A value takes the place of a word behind the colon of a key. That key is still there, with its colon and its path,
exactly if what comes to follow the colon sets it apart. -/
theorem Engine.value_hasKey_iff {e : Engine} {d : Document} {caret : Nat} {p : Proposal} {value : Text} {order : Nat}
    (proposed : p ∈ e.proposals d caret) (offer : p.offer = .simple value order) :
    ∃ front gap word below path, isBlank gap = true ∧ d.WordAround caret (front ++ ':' :: gap) word below ∧
      d.outline.HasKey (bytes front) path ∧
      (p.apply d).document.text = front ++ ':' :: (gap ++ value ++ below) ∧
      ((p.apply d).document.outline.HasKey (bytes front) path ↔ (gap ++ value ++ below).SetsApart) := by
  obtain ⟨catalogue, c, colon, -, reads, place, candidate⟩ := exists_valueProposal proposed offer
  obtain ⟨key, path, property, other, order', found, reached, -, -, rfl⟩ := exists_of_mem_valueProposals candidate
  obtain ⟨rfl, rfl⟩ := Offer.simple.inj offer
  obtain ⟨above, word, below, around, stands⟩ := Document.exists_wordAround reads
  obtain ⟨start, lead, rfl, -, -, kind⟩ := around.exists_lead reads stands
  obtain ⟨front, gap, rfl, blank, rfl⟩ := CaretPlace.exists_of_value (kind.symm.trans place)
  obtain ⟨d', s, applied, text'⟩ := around.apply_insert stands other
  obtain ⟨document, -⟩ := Proposal.apply_eq
    (p := .ofValue other order' ((Draft.empty.delete c.word.start c.word.stop).insert c.word.start other)) applied
  have has := Outline.hasKey_of_keyAtColon? found reached
  rw [← bytes_append] at has
  have text : d.text = start ++ front ++ ':' :: (gap ++ word ++ below) := by simpa using around.text
  have text' : d'.text = start ++ front ++ ':' :: (gap ++ other ++ below) := by simpa using text'
  rw [document]
  refine ⟨start ++ front, gap, word, below, path, blank, ?_, has, text', Document.hasKey_iff has text text'⟩
  rwa [← List.append_assoc] at around

/-- A blank stands behind the colon already. -/
theorem Engine.value_hasKey_blank :
    let d : Document := ⟨"a: \n".toList⟩
    let flag : Property := { Property.named "a".toList with type := some "boolean".toList }
    let e : Engine := ⟨some (.ofList [flag]), none, 200⟩
    ∃ p ∈ e.proposals d 3, (p.apply d).document.text = "a: true\n".toList ∧
      ∃ path, d.outline.HasKey 1 path ∧ (p.apply d).document.outline.HasKey 1 path := by
  intro d flag e
  let value (text : Text) (order : Nat) : Proposal := .ofValue text order (Draft.empty.insert 3 text)
  let c : CaretContext := ⟨.value 1, ⟨3, 3⟩, [], 3⟩
  have reads : d.caretContext? 3 = some c := by decide
  have reached : d.outline.keyPath? 1 = some ["a".toList] := by decide +kernel
  have found : d.outline.keyAtColon? 1 = some 1 := by decide
  have known : (Catalogue.ofList [flag]).get? (KeyPath.dotted ["a".toList]) = some flag := rfl
  have candidates : e.candidates (.ofList [flag]) d c = [value "true".toList 0, value "false".toList 1] :=
    candidates_value rfl found reached known
  have proposals := proposals_of_pairwise (e := e) rfl reads candidates (by decide) (by decide)
  have proposed : value "true".toList 0 ∈ e.proposals d 3 := by simp [proposals]
  have applied : ((value "true".toList 0).apply d).document.text = ['a', ':', ' ', 't', 'r', 'u', 'e', '\n'] :=
    congrArg Document.text (Proposal.apply_eq (p := value "true".toList 0) (Draft.apply_insert (n := 3) (by decide) _)).1
  obtain ⟨front, gap, word, below, path, -, -, has, text, iff⟩ := value_hasKey_iff proposed rfl
  rw [applied] at text
  -- The text has one colon only.
  have apart : front = ['a'] ∧ (gap ++ "true".toList ++ below).SetsApart := by
    rcases front with _ | ⟨x, _ | ⟨y, front⟩⟩
    · simp at text
    · obtain ⟨rfl, rest⟩ := List.cons_eq_cons.mp text
      rw [← (List.cons_eq_cons.mp rest).2]
      decide
    · obtain ⟨-, rest⟩ := List.cons_eq_cons.mp (List.cons_eq_cons.mp text).2
      have member : ':' ∈ [' ', 't', 'r', 'u', 'e', '\n'] := by simp [rest]
      contradiction
  obtain ⟨rfl, apart⟩ := apart
  exact ⟨value "true".toList 0, proposed, applied, path, has, iff.mpr apart⟩

/-- A value right behind the colon leaves no key. -/
theorem Engine.value_hasKey_tight :
    let d : Document := ⟨"a:".toList⟩
    let flag : Property := { Property.named "a".toList with type := some "boolean".toList }
    let e : Engine := ⟨some (.ofList [flag]), none, 200⟩
    d.outline.HasKey 1 ["a".toList] ∧
      ∃ p ∈ e.proposals d 2, p.property?.isNone = true ∧ (p.apply d).document = ⟨"a:true".toList⟩ ∧
        ∀ path, ¬(p.apply d).document.outline.HasKey 1 path := by
  intro d flag e
  let value (text : Text) (order : Nat) : Proposal := .ofValue text order (Draft.empty.insert 2 text)
  let c : CaretContext := ⟨.value 1, ⟨2, 2⟩, [], 2⟩
  have reads : d.caretContext? 2 = some c := by decide
  have reached : d.outline.keyPath? 1 = some ["a".toList] := by decide +kernel
  have found : d.outline.keyAtColon? 1 = some 1 := by decide
  have known : (Catalogue.ofList [flag]).get? (KeyPath.dotted ["a".toList]) = some flag := rfl
  have candidates : e.candidates (.ofList [flag]) d c = [value "true".toList 0, value "false".toList 1] :=
    candidates_value rfl found reached known
  have proposals := proposals_of_pairwise (e := e) rfl reads candidates (by decide) (by decide)
  have applied : ((value "true".toList 0).apply d).document = ⟨"a:true".toList⟩ :=
    (Proposal.apply_eq (p := value "true".toList 0) (Draft.apply_insert (n := 2) (by decide) _)).1
  refine ⟨⟨1, _, rfl, rfl, reached⟩, value "true".toList 0, by simp [proposals], rfl, applied, ?_⟩
  rw [applied]
  rintro path ⟨i, n, found, at', -⟩
  have keyless : ∀ n ∈ (Document.mk "a:true".toList).outline.nodes, n.kind.colon? = none := by decide
  rw [keyless n (List.mem_of_getElem? found)] at at'
  contradiction

end Offside
