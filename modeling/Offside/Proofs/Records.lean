import Mathlib.Data.List.Find
import Mathlib.Tactic.SplitIfs
import Offside.Json.Record
import Offside.Proofs.WrittenValues

/-! Records in JSON objects. A declared field is what the object has under its names, if that is not more than one. -/
namespace Offside.Json

open Text

def fields : Json → List (Text × Json)
  | .object fields => fields
  | _ => []

def rename (old new : Text) (j : Json) : Json :=
  ofFields (j.fields.map fun field => (if field.1 = old then new else field.1, field.2))

def extend (extra : List (Text × Json)) (j : Json) : Json := ofFields (j.fields ++ extra)

def dropNull : Option Json → Option Json
  | some .null => none
  | value => value

theorem mem_of_field? {fields : List (Text × Json)} {name : Text} {value : Json} (found : field? (.object fields) name = some value) :
    (name, value) ∈ fields := by
  obtain ⟨before, behind, split, -⟩ := List.lookup_eq_some_iff.mp found
  exact split ▸ List.mem_append_cons_self

theorem depth_le_of_field? {j : Json} {name : Text} {value : Json} (found : j.field? name = some value) : value.depth ≤ j.depth := by
  cases j with
  | object fields => exact (depth_le_fieldsDepth (mem_of_field? found)).trans (Nat.le_succ _)
  | _ => contradiction

theorem findRev?_toList {α : Type} (p : α → Bool) (a : Option α) : a.toList.findRev? p = a.filter p := by
  cases a with
  | none => rfl
  | some a => by_cases good : p a <;> simp [Option.filter, good]

theorem field?_ofFields (fields : List (Text × Json)) (name : Text) :
    (ofFields fields).field? name = (fields.findRev? (·.1 = name)).map Prod.snd :=
  Dictionary.get?_ofList fields name

theorem field?_ofFields_append (front back : List (Text × Json)) (name : Text) :
    (ofFields (front ++ back)).field? name = ((ofFields back).field? name).or ((ofFields front).field? name) := by
  simp only [field?_ofFields, Dictionary.findRev?_append, Option.map_or]

theorem field?_ofFields_fields (fields : List (Text × Json)) (name : Text) :
    (ofFields (ofFields fields).fields).field? name = (ofFields fields).field? name := by
  have same : ofFields (Dictionary.ofList fields).entries = ofFields fields := by
    rw [ofFields, Dictionary.ofList_entries, ofFields]
  exact congrArg (field? · name) same

theorem field?_extend (fields extra : List (Text × Json)) (name : Text) :
    ((ofFields fields).extend extra).field? name = ((ofFields extra).field? name).or ((ofFields fields).field? name) := by
  rw [extend, field?_ofFields_append, field?_ofFields_fields]

theorem field?_ofFields_eq_none {fields : List (Text × Json)} {name : Text} (absent : ∀ field ∈ fields, field.1 ≠ name) :
    (ofFields fields).field? name = none := by
  rw [field?_ofFields, List.findRev?_eq_find?_reverse, Option.map_eq_none_iff, List.find?_eq_none]
  simpa using absent

theorem field?_rename {fields : List (Text × Json)} {old new : Text} (absent : (ofFields fields).field? new = none) (name : Text) :
    ((ofFields fields).rename old new).field? name =
      if name = new then (ofFields fields).field? old
      else if name = old then none
      else (ofFields fields).field? name := by
  have other : ∀ field ∈ (ofFields fields).fields.reverse, field.1 ≠ new := by
    rintro ⟨key, value⟩ member rfl
    have found := Dictionary.get?_eq_some_iff.mpr (List.mem_reverse.mp member)
    exact absurd (found.symm.trans absent) (Option.some_ne_none value)
  have renamed : ((ofFields fields).rename old new).field? name =
      ((ofFields fields).fields.reverse.find? fun field => (if field.1 = old then new else field.1) = name).map Prod.snd := by
    rw [rename, field?_ofFields, List.findRev?_eq_find?_reverse, ← List.map_reverse, List.find?_map, Option.map_map]
    rfl
  have original (name : Text) : (ofFields fields).field? name =
      ((ofFields fields).fields.reverse.find? fun field => field.1 = name).map Prod.snd := by
    rw [← field?_ofFields_fields, field?_ofFields, List.findRev?_eq_find?_reverse]
  rw [renamed]
  split_ifs with first second
  · rw [original]
    congr 1
    refine List.find?_congr fun field member => ?_
    by_cases changed : field.1 = old <;> simp [changed, first, other field member]
  · rw [Option.map_eq_none_iff, List.find?_eq_none]
    intro field member
    by_cases changed : field.1 = old <;> simp [changed, second, Ne.symm (second ▸ first)]
  · rw [original]
    congr 1
    refine List.find?_congr fun field member => ?_
    by_cases changed : field.1 = old <;> simp [changed, Ne.symm first, Ne.symm second]

/-- Fields with distinct names, some of them left out, are found by their names. -/
theorem field?_ofFields_flatMap {parts : List (Text × Option Json)} (distinct : (parts.map Prod.fst).Nodup) (name : Text) :
    (ofFields (parts.flatMap fun part => (part.2.map (part.1, ·)).toList)).field? name = (parts.lookup name).join := by
  induction parts with
  | nil => rfl
  | cons part parts ih =>
    obtain ⟨key, value⟩ := part
    obtain ⟨new, distinct⟩ := List.nodup_cons.mp distinct
    rw [List.flatMap_cons, field?_ofFields_append, ih distinct, field?_ofFields, findRev?_toList, Dictionary.lookup_cons]
    by_cases same : name = key
    · subst same
      have absent : parts.lookup name = none := by
        rw [List.lookup_eq_none_iff]
        exact fun part member => bne_iff_ne.mpr fun same => new (List.mem_map.mpr ⟨part, member, same.symm⟩)
      cases value <;> simp [absent, Option.filter]
    · cases value <;> simp [same, Ne.symm same, Option.filter]

namespace Record

/-- What a declared field takes of what stands under its names: nothing, or one, but not more. -/
def only? {α : Type} : List α → Option (Option α)
  | [] => some none
  | [a] => some (some a)
  | _ => none

theorem only?_map {α β : Type} (f : α → β) (found : List α) : only? (found.map f) = (only? found).map (Option.map f) := by
  match found with
  | [] => rfl
  | [_] => rfl
  | _ :: _ :: _ => rfl

theorem only?_perm {α : Type} {found found' : List α} (perm : found.Perm found') : only? found = only? found' := by
  match found with
  | [] => rw [perm.nil_eq]
  | [a] => rw [List.singleton_perm.mp perm]
  | a :: b :: rest =>
    match found', perm.length_eq with
    | _ :: _ :: _, _ => rfl

theorem only?_eq_none {α : Type} {found : List α} {a b : α} (first : a ∈ found) (second : b ∈ found) (different : a ≠ b) :
    only? found = none := by
  match found with
  | [] => contradiction
  | [_] => exact absurd ((List.mem_singleton.mp first).trans (List.mem_singleton.mp second).symm) different
  | _ :: _ :: _ => rfl

theorem mapM_writtenFields (fields : List (Text × Json)) :
    (writtenFields fields).mapM (fun pair : Option Text × Written => pair.1.map (·, pair.2)) =
      some (fields.map fun field => (field.1, field.2.written)) := by
  induction fields with
  | nil => rfl
  | cons field fields ih => simp [writtenFields, ih]

theorem fields?_written_object (declared : List (List String)) (fields : List (Text × Json)) :
    fields? declared (written (.object fields)) = declared.mapM fun names =>
      (only? (fields.filter fun field => (names.map String.toList).contains field.1)).map (Option.map fun field => field.2.written) := by
  rw [written, fields?]
  simp only [mapM_writtenFields, Option.bind_eq_bind, Option.bind_some, List.filter_map, Function.comp_def]
  congr
  funext names
  generalize fields.filter (fun field => (names.map String.toList).contains field.1) = found
  rcases found with - | ⟨field, - | ⟨other, rest⟩⟩ <;> rfl

/-- What an object has for a field that goes by some names. -/
def taken? (j : Json) (names : List String) : Option (Option Json) := only? (names.filterMap fun name => j.field? name.toList)

theorem taken?_ofFields {names : List String} (distinct : names.Nodup) (fields : List (Text × Json)) :
    taken? (ofFields fields) names =
      (only? ((Dictionary.ofList fields).entries.filter fun field => (names.map String.toList).contains field.1)).map
        (Option.map Prod.snd) := by
  have perm := (Dictionary.ofList fields).perm_filter_entries (distinct.map fun _ _ => String.toList_injective)
  rw [only?_perm perm, ← only?_map, taken?, List.filterMap_map, List.map_filterMap]
  simp only [Function.comp_def, Option.map_map, Option.map_id']
  rfl

theorem fields?_written_ofFields {declared : List (List String)} (distinct : ∀ names ∈ declared, names.Nodup)
    (fields : List (Text × Json)) : fields? declared (ofFields fields).written =
      declared.mapM fun names => (taken? (ofFields fields) names).map (Option.map written) := by
  rw [ofFields, fields?_written_object]
  induction declared with
  | nil => rfl
  | cons names declared ih =>
    obtain ⟨first, later⟩ := List.forall_mem_cons.mp distinct
    have same := taken?_ofFields first fields
    rw [ofFields] at same
    rw [List.mapM_cons, List.mapM_cons, ih later, same, Option.map_map]
    simp only [Function.comp_def, Option.map_map]

theorem taken?_singleton (j : Json) (name : String) : taken? j [name] = some (j.field? name.toList) := by
  cases found : j.field? name.toList <;> simp [taken?, only?, found, -String.reduceToList]

theorem optional_text? (t : Option Text) : optional text? ((t.map Json.string).map written) = some t := by
  cases t <;> rfl

theorem orDefault_list? (items : List Text) :
    orDefault [] (list? text?) ((if items.isEmpty then none else some (.array (items.map Json.string))).map written) =
      some items := by
  have read (items : List Text) : list? text? (written (.array (items.map Json.string))) = some items := by
    rw [written, list?]
    induction items with
    | nil => rfl
    | cons item items ih =>
      rw [List.map_cons, writtenItems, List.mapM_cons, ih]
      rfl
  cases items with
  | nil => rfl
  | cons item items => exact read (item :: items)

theorem optional_value? {value : Option Json} (ordered : ∀ v ∈ value, v.Ordered) {d : Nat} (deep : ∀ v ∈ value, v.depth ≤ d) :
    optional (Written.value? d) (value.map written) = some (dropNull value) := by
  cases value with
  | none => rfl
  | some v =>
    have read := value?_written (ordered v rfl) (deep v rfl)
    cases v with
    | null => rfl
    | _ => rw [Option.map_some, optional, read, Option.map_some] <;> simp [dropNull, written]

end Record
end Offside.Json
