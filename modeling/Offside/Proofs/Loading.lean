import Offside.Catalogue.Basic
import Offside.Proofs.ByteOrder
import Offside.Proofs.Dictionaries

/-! Catalogues read from metadata. Of the properties with the same id the last one is kept, and the hints of all groups under its
id are added to its own ones in their order. -/
namespace Offside

open Text

/-- The texts of all hints under a name, in their order. -/
def Metadata.hintTexts (m : Metadata) (name : Text) : List Text :=
  (m.hints.filter (·.name = name)).flatMap fun group => group.values.map Catalogue.hintText

namespace Catalogue

/-- The catalogue holds what the metadata says, nothing else, in the order of the bytes of the ids. -/
structure Loads (c : Catalogue) (m : Metadata) : Prop where
  ids : ∀ id, id ∈ c.toList.map Property.id ↔ id ∈ m.properties.map Property.id
  increasing : (c.toList.map fun p => p.id.utf8).Pairwise (· < ·)
  listed : ∀ p, p ∈ c.toList ↔ c.get? p.id = some p
  get : ∀ id, c.get? id =
    (m.properties.findRev? (·.id = id)).map fun p => { p with hints := p.hints ++ m.hintTexts id }

variable {c c' : Catalogue}

theorem ext_get? (same : ∀ id, c.get? id = c'.get? id) : c = c' := by
  have properties : c.properties = c'.properties := Dictionary.ext_get? same
  cases c
  cases c'
  congr

theorem map_id_toList (c : Catalogue) : c.toList.map Property.id = c.properties.entries.map Prod.fst := by
  rw [toList, Dictionary.values, List.map_map]
  exact List.map_congr_left c.filed

theorem mem_toList_iff {p : Property} : p ∈ c.toList ↔ c.get? p.id = some p := by
  rw [get?, Dictionary.get?_eq_some_iff, toList, Dictionary.values, List.mem_map]
  constructor
  · rintro ⟨⟨id, p⟩, member, rfl⟩
    have same : p.id = id := c.filed _ member
    exact same ▸ member
  · exact fun member => ⟨_, member, rfl⟩

theorem get?_ofList (properties : List Property) (id : Text) :
    (ofList properties).get? id = properties.findRev? (·.id = id) := by
  rw [get?, ofList, Dictionary.get?_ofList, List.findRev?_eq_find?_reverse, List.findRev?_eq_find?_reverse, ← List.map_reverse,
    List.find?_map, Option.map_map]
  exact Option.map_id'

theorem ofList_toList (c : Catalogue) : ofList c.toList = c := by
  have entries : (c.toList.map fun p => (p.id, p)) = c.properties.entries := by
    rw [toList, Dictionary.values, List.map_map]
    refine (List.map_congr_left fun entry member => ?_).trans (List.map_id _)
    exact Prod.ext (c.filed entry member) rfl
  refine ext_get? fun id => ?_
  have same : (Dictionary.ofList (c.toList.map fun p => (p.id, p))).get? id = c.properties.get? id := by
    rw [entries, Dictionary.ofList_entries]
  exact same

theorem get?_addHints (c : Catalogue) (group : HintGroup) (id : Text) : (c.addHints group).get? id =
    if id = group.name then (c.get? id).map fun p => { p with hints := p.hints ++ group.values.map hintText } else c.get? id :=
  Dictionary.get?_modify

theorem get?_foldl_addHints (groups : List HintGroup) (c : Catalogue) (id : Text) :
    (groups.foldl addHints c).get? id = (c.get? id).map fun p =>
      { p with hints := p.hints ++ (groups.filter (·.name = id)).flatMap fun group => group.values.map hintText } := by
  induction groups generalizing c with
  | nil => simp
  | cons group groups ih =>
    rw [List.foldl_cons, ih, get?_addHints, List.filter_cons]
    by_cases same : id = group.name
    · simp [same, Function.comp_def]
    · simp [same, Ne.symm same]

theorem get?_ofMetadata (m : Metadata) (id : Text) : (ofMetadata m).get? id =
    (m.properties.findRev? (·.id = id)).map fun p => { p with hints := p.hints ++ m.hintTexts id } := by
  rw [ofMetadata, get?_foldl_addHints, get?_ofList]
  rfl

theorem mem_ids_iff {id : Text} : id ∈ c.toList.map Property.id ↔ (c.get? id).isSome = true := by
  rw [map_id_toList]
  exact Dictionary.contains_iff.symm

theorem increasing_ids (c : Catalogue) : (c.toList.map fun p => p.id.utf8).Pairwise (· < ·) := by
  have increasing := c.properties.increasing_utf8
  rwa [← map_id_toList, List.map_map] at increasing

theorem loads_ofMetadata (m : Metadata) : (ofMetadata m).Loads m where
  ids id := by
    rw [mem_ids_iff, get?_ofMetadata, Option.isSome_map, List.findRev?_eq_find?_reverse, List.find?_isSome]
    simp
  increasing := increasing_ids _
  listed _ := mem_toList_iff
  get := get?_ofMetadata m

theorem Loads.unique {m : Metadata} (loads : c.Loads m) (loads' : c'.Loads m) : c = c' :=
  ext_get? fun id => (loads.get id).trans (loads'.get id).symm

theorem mem_ids_of_findRev? {properties : List Property} {id : Text} {p : Property}
    (found : properties.findRev? (·.id = id) = some p) : id ∈ properties.map Property.id := by
  rw [List.findRev?_eq_find?_reverse] at found
  have same : p.id = id := by simpa using List.find?_some found
  exact List.mem_map.mpr ⟨p, List.mem_reverse.mp (List.mem_of_find?_eq_some found), same⟩

theorem ofMetadata_filter (m : Metadata) :
    ofMetadata { m with hints := m.hints.filter fun group => group.name ∈ m.properties.map Property.id } = ofMetadata m := by
  refine ext_get? fun id => ?_
  rw [get?_ofMetadata, get?_ofMetadata]
  cases found : m.properties.findRev? (·.id = id) with
  | none => rfl
  | some p =>
    have known := mem_ids_of_findRev? found
    have kept : (m.hints.filter fun group => group.name ∈ m.properties.map Property.id).filter (·.name = id) =
        m.hints.filter (·.name = id) := by
      rw [List.filter_filter]
      refine List.filter_congr fun group _ => ?_
      by_cases named : group.name = id
      · simp only [named, known, decide_true, Bool.and_self]
      · simp only [named, decide_false, Bool.false_and]
    simp only [Metadata.hintTexts, kept]

/-- A text is accepted with the one catalogue that holds what its metadata says. Making the catalogue anew of its properties, as is
done at the end, changes nothing, and neither do hints under the id of no property. -/
theorem parse?_loads (t : Text) (c : Catalogue) :
    (parse? t = some c ↔ ∃ m, Metadata.parse? t = some m ∧ c.Loads m) ∧ ofList c.toList = c ∧
    (∀ s, hintText (.string s) = s) ∧ (∀ value, (∀ s, value ≠ .string s) → hintText value = value.text) ∧
    ∀ m, ofMetadata { m with hints := m.hints.filter fun group => group.name ∈ m.properties.map Property.id } = ofMetadata m := by
  refine ⟨?_, ofList_toList c, fun s => rfl, fun value other => ?_, ofMetadata_filter⟩
  · rw [parse?, Option.map_eq_some_iff]
    refine exists_congr fun m => and_congr_right fun _ => ?_
    exact ⟨fun made => made ▸ loads_ofMetadata m, fun loads => (loads_ofMetadata m).unique loads⟩
  · cases value with
    | string s => exact absurd rfl (other s)
    | _ => rfl

/-- A hint that is no text. -/
theorem parse?_loads_true :
    let t := "\x7b\"properties\":[\x7b\"id\":\"a\"\x7d],\"hints\":[\x7b\"name\":\"a\",\"values\":[\x7b\"value\":true\x7d]\x7d]\x7d".toList
    let m : Metadata := ⟨[.named ['a']], [⟨['a'], [.bool true]⟩]⟩
    parse? t = some (ofMetadata m) ∧ (ofMetadata m).toList = [{ Property.named ['a'] with hints := ["true".toList] }] ∧
    (∀ s, Json.bool true ≠ .string s) ∧ hintText (.bool true) = "true".toList := by
  intro t m
  have read : Metadata.parse? t = some m := by
    simp only [t, m]
    cbv
  have other : ∀ s, Json.bool true ≠ .string s := nofun
  obtain ⟨accepted, -, -, shown, -⟩ := parse?_loads t (ofMetadata m)
  exact ⟨accepted.mpr ⟨m, read, loads_ofMetadata m⟩, rfl, other, shown _ other⟩

/-- Neither the first property `a`, with the mark of deprecation, nor the hint for `c` is left. -/
example : (ofMetadata
    ⟨[.named ['b'], { Property.named ['a'] with deprecated := true, hints := [['x']] }, { Property.named ['a'] with hints := [['y']] }],
      [⟨['a'], [.string ['z'], .array [.bool true, .null]]⟩, ⟨['c'], [.null]⟩, ⟨['a'], []⟩, ⟨['a'], [.null]⟩]⟩).toList =
    [{ Property.named ['a'] with hints := [['y'], ['z'], "[true,null]".toList, "null".toList] }, .named ['b']] := rfl

end Catalogue
end Offside
