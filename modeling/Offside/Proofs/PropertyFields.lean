import Offside.Catalogue.Metadata
import Offside.Proofs.Records

/-! The fields in which a property is encoded, and the property that is decoded from them. -/
namespace Offside.Property

open Json Json.Record

def parts (p : Property) : List (Text × Option Json) :=
  [("id".toList, some (.string p.id)),
    ("type".toList, p.type.map .string),
    ("defaultValue".toList, p.defaultValue),
    ("description".toList, p.description.map .string),
    ("hints".toList, if p.hints.isEmpty then none else some (.array (p.hints.map .string))),
    ("deprecated".toList, some (.bool p.deprecated))]

theorem json_eq_ofFields_parts (p : Property) : p.json = .ofFields (p.parts.flatMap fun part => (part.2.map (part.1, ·)).toList) := by
  cases given : p.hints.isEmpty <;> simp [json, parts, given, -String.reduceToList]

theorem field?_json (p : Property) (name : Text) : p.json.field? name = (p.parts.lookup name).join := by
  have distinct : (p.parts.map Prod.fst).Nodup := by simp only [parts, List.map]; decide
  rw [json_eq_ofFields_parts, Json.field?_ofFields_flatMap distinct]

/-- Decodes a value, however deeply it nests. -/
def ofJson? (j : Json) : Option Property := ofWritten? j.depth j.written

/-- With no default value instead of null. -/
def withoutNull (p : Property) : Property := { p with defaultValue := Json.dropNull p.defaultValue }

theorem withoutNull_eq_self {p : Property} (given : p.defaultValue ≠ some .null) : p.withoutNull = p := by
  have same : dropNull p.defaultValue = p.defaultValue := by
    unfold dropNull
    split
    next null => exact absurd null given
    next => rfl
  rw [withoutNull, same]

/-- An object holds what the encoding does, the identifier under either of its names. -/
structure Encoded (p : Property) (j : Json) : Prop where
  id : j.field? "id".toList = some (.string p.id) ∧ j.field? "name".toList = none ∨
    j.field? "id".toList = none ∧ j.field? "name".toList = some (.string p.id)
  others : ∀ name ∈ ["type", "defaultValue", "description", "hints", "deprecated"],
    j.field? name.toList = p.json.field? name.toList

variable {p : Property} {fields : List (Text × Json)}

theorem Encoded.decoded (encoded : p.Encoded (ofFields fields)) (ordered : ∀ v ∈ p.defaultValue, v.Ordered) :
    ofJson? (ofFields fields) = some p.withoutNull := by
  have id : taken? (ofFields fields) ["id", "name"] = some (some (.string p.id)) := by
    rcases encoded.id with ⟨id, name⟩ | ⟨id, name⟩ <;> simp [taken?, only?, id, name, -String.reduceToList]
  have others := encoded.others
  simp only [List.forall_mem_cons, field?_json] at others
  obtain ⟨type, defaultValue, description, hints, deprecated, -⟩ := others
  have deep : ∀ v ∈ p.defaultValue, v.depth ≤ (ofFields fields).depth := fun v given =>
    depth_le_of_field? (defaultValue.trans given)
  have read : fields? [["id", "name"], ["type"], ["defaultValue"], ["description"], ["hints"], ["deprecated"]]
      (ofFields fields).written = _ := fields?_written_ofFields (by decide) fields
  simp only [List.mapM_cons, List.mapM_nil, id, taken?_singleton, type, defaultValue, description, hints, deprecated] at read
  have readType : Record.optional text? ((p.parts.lookup "type".toList).join.map written) = some p.type := optional_text? p.type
  have readDefault : Record.optional (Written.value? (ofFields fields).depth)
      ((p.parts.lookup "defaultValue".toList).join.map written) = some (dropNull p.defaultValue) := optional_value? ordered deep
  have readDescription : Record.optional text? ((p.parts.lookup "description".toList).join.map written) = some p.description :=
    optional_text? p.description
  have readHints : orDefault [] (list? text?) ((p.parts.lookup "hints".toList).join.map written) = some p.hints :=
    orDefault_list? p.hints
  have readDeprecated : orDefault false bool? ((p.parts.lookup "deprecated".toList).join.map written) = some p.deprecated := rfl
  rw [ofJson?, ofWritten?, read]
  simp [readType, readDefault, readDescription, readHints, readDeprecated, text?, written, withoutNull, -String.reduceToList]

theorem encoded_json (p : Property) : p.Encoded p.json where
  id := .inl ⟨p.field?_json _, p.field?_json _⟩
  others _ _ := rfl

theorem Encoded.rename (encoded : p.Encoded (ofFields fields)) (absent : (ofFields fields).field? "name".toList = none) :
    p.Encoded ((ofFields fields).rename "id".toList "name".toList) where
  id := by
    rcases encoded.id with ⟨id, -⟩ | ⟨-, name⟩
    · refine .inr ⟨?_, ?_⟩
      · rw [field?_rename absent, if_neg (by decide), if_pos rfl]
      · rw [field?_rename absent, if_pos rfl, id]
    · exact absurd (name.symm.trans absent) (Option.some_ne_none _)
  others name member := by
    have new : name.toList ≠ "name".toList := by revert name; decide
    have old : name.toList ≠ "id".toList := by revert name; decide
    rw [field?_rename absent, if_neg new, if_neg old]
    exact encoded.others name member

def fieldNames : List Text := ["id", "name", "type", "defaultValue", "description", "hints", "deprecated"].map String.toList

theorem Encoded.extend (encoded : p.Encoded (ofFields fields)) {extra : List (Text × Json)}
    (unknown : ∀ field ∈ extra, field.1 ∉ fieldNames) : p.Encoded ((ofFields fields).extend extra) := by
  have same (name : Text) (known : name ∈ fieldNames) : ((ofFields fields).extend extra).field? name = (ofFields fields).field? name := by
    rw [field?_extend, field?_ofFields_eq_none fun field member same => unknown field member (same ▸ known), Option.none_or]
  refine ⟨?_, fun name member => ?_⟩
  · rw [same _ (by simp [fieldNames]), same _ (by simp [fieldNames])]
    exact encoded.id
  · rw [same _ (List.mem_map_of_mem (by revert name; decide))]
    exact encoded.others name member

theorem ofJson?_eq_none_of_both {j : Json} (id : (j.field? "id".toList).isSome) (name : (j.field? "name".toList).isSome) :
    ofJson? j = none := by
  cases j with
  | object fields =>
    obtain ⟨value, id⟩ := Option.isSome_iff_exists.mp id
    obtain ⟨value', name⟩ := Option.isSome_iff_exists.mp name
    let found := fields.filter fun field => (["id", "name"].map String.toList).contains field.1
    have first : ("id".toList, value) ∈ found := List.mem_filter.mpr ⟨mem_of_field? id, rfl⟩
    have second : ("name".toList, value') ∈ found := List.mem_filter.mpr ⟨mem_of_field? name, rfl⟩
    have both : only? found = none := only?_eq_none first second (by simp)
    rw [ofJson?, ofWritten?, fields?_written_object, List.mapM_cons, both]
    rfl
  | _ => contradiction

theorem decoded_json (ordered : ∀ v ∈ p.defaultValue, v.Ordered) : ofJson? p.json = some p.withoutNull := by
  have encoded := p.encoded_json
  rw [json_eq_ofFields_parts] at encoded ⊢
  exact encoded.decoded ordered

/-- A property is decoded from its encoding, but for a default value of null. It does not matter which of its two names the
identifier stands under, as long as it is not both, nor what stands under names that are not known. The objects in the default value
are in order, as in all values that are read (`Json.ordered_of_value?`). -/
theorem ofJson?_json (p : Property) (ordered : ∀ v ∈ p.defaultValue, v.Ordered) :
    ofJson? p.json = some p.withoutNull ∧
    ofJson? (p.json.rename "id".toList "name".toList) = some p.withoutNull ∧
    (∀ extra, (∀ field ∈ extra, field.1 ∉ fieldNames) →
      ofJson? (p.json.extend extra) = some p.withoutNull ∧
      ofJson? ((p.json.rename "id".toList "name".toList).extend extra) = some p.withoutNull) ∧
    ∀ j : Json, (j.field? "id".toList).isSome → (j.field? "name".toList).isSome → ofJson? j = none := by
  have encoded := p.encoded_json
  have noName : p.json.field? "name".toList = none := p.field?_json _
  refine ⟨decoded_json ordered, ?_⟩
  rw [json_eq_ofFields_parts] at encoded noName ⊢
  have renamed := encoded.rename noName
  exact ⟨renamed.decoded ordered,
    fun extra unknown => ⟨(encoded.extend unknown).decoded ordered, (renamed.extend unknown).decoded ordered⟩,
    fun j id name => ofJson?_eq_none_of_both id name⟩

/-- Nulls inside a default value stay, and an unknown field is added twice. -/
theorem ofJson?_json_nested :
    let p : Property := { named ['a'] with
      defaultValue := some (.object [(['x'], .array [.null, .bool true]), (['y'], .null)]), hints := [['u'], []] }
    (∀ v ∈ p.defaultValue, v.Ordered) ∧
    ofJson? ((p.json.rename "id".toList "name".toList).extend [(['z'], .object []), (['z'], .null)]) = some p := by
  intro p
  have ordered : ∀ v ∈ p.defaultValue, v.Ordered := by
    rintro v ⟨⟩
    refine .object (by decide) (List.forall_mem_cons.mpr ⟨.array ?_, List.forall_mem_singleton.mpr .null⟩)
    exact List.forall_mem_cons.mpr ⟨.null, List.forall_mem_singleton.mpr (.bool true)⟩
  exact ⟨ordered, ((ofJson?_json p ordered).2.2.1 _ (by decide)).2⟩

example : ofJson? (Property.json { named ['a'] with defaultValue := some .null }) = some (named ['a']) := rfl

theorem ordered_of_optional_value? {w : Option Written} {value : Option Json} {d : Nat}
    (read : Record.optional (Written.value? d) w = some value) : ∀ v ∈ value, v.Ordered ∧ v ≠ .null := by
  unfold Record.optional at read
  split at read
  · cases read; exact nofun
  · cases read; exact nofun
  · next w notNull =>
    obtain ⟨v, valued, rfl⟩ := Option.map_eq_some_iff.mp read
    rintro _ ⟨⟩
    exact ⟨ordered_of_value? valued, fun null => notNull (value?_eq_null_iff.mp (null ▸ valued))⟩

/-- What was decoded is decoded again from its encoding. -/
theorem ofJson?_json_of_ofJson? {j : Json} (decoded : ofJson? j = some p) : ofJson? p.json = some p := by
  have given : ∀ v ∈ p.defaultValue, v.Ordered ∧ v ≠ .null := by
    simp only [ofJson?, ofWritten?, Option.bind_eq_bind, Option.bind_eq_some_iff] at decoded
    obtain ⟨fields, -, decoded⟩ := decoded
    split at decoded
    · simp only [Option.bind_eq_some_iff, Option.pure_def, Option.some.injEq] at decoded
      obtain ⟨-, -, -, -, value, read, -, -, -, -, -, -, rfl⟩ := decoded
      exact ordered_of_optional_value? read
    · contradiction
  have ordered : ∀ v ∈ p.defaultValue, v.Ordered := fun v member => (given v member).1
  have notNull : p.defaultValue ≠ some .null := fun null => (given .null null).2 rfl
  rw [decoded_json ordered, withoutNull_eq_self notNull]

end Offside.Property
