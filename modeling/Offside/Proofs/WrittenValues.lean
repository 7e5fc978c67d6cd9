import Offside.Json.Reader
import Offside.Proofs.Dictionaries

/-! JSON values and what is written of them. A value whose objects are in order is the one that its writing says, and reading gives
no other values. -/
namespace Offside.Json

/-- In all objects the fields are in order of their names, without repetition. -/
inductive Ordered : Json → Prop
  | null : Ordered .null
  | bool (value : Bool) : Ordered (.bool value)
  | number (value : Number) : Ordered (.number value)
  | string (value : Text) : Ordered (.string value)
  | array {items : List Json} (each : ∀ item ∈ items, Ordered item) : Ordered (.array items)
  | object {fields : List (Text × Json)} (increasing : (fields.map Prod.fst).Pairwise (· < ·))
      (each : ∀ field ∈ fields, Ordered field.2) : Ordered (.object fields)

mutual

def depth : Json → Nat
  | .array items => itemsDepth items + 1
  | .object fields => fieldsDepth fields + 1
  | _ => 0

def itemsDepth : List Json → Nat
  | [] => 0
  | item :: items => max item.depth (itemsDepth items)

def fieldsDepth : List (Text × Json) → Nat
  | [] => 0
  | (_, value) :: fields => max value.depth (fieldsDepth fields)

end

theorem depth_le_itemsDepth {items : List Json} {item : Json} (member : item ∈ items) : item.depth ≤ itemsDepth items := by
  induction items with
  | nil => contradiction
  | cons first items ih =>
    rw [itemsDepth]
    rcases List.mem_cons.mp member with rfl | later
    · exact Nat.le_max_left _ _
    · exact (ih later).trans (Nat.le_max_right _ _)

theorem depth_le_fieldsDepth {fields : List (Text × Json)} {field : Text × Json} (member : field ∈ fields) :
    field.2.depth ≤ fieldsDepth fields := by
  induction fields with
  | nil => contradiction
  | cons first fields ih =>
    rw [fieldsDepth]
    rcases List.mem_cons.mp member with rfl | later
    · exact Nat.le_max_left _ _
    · exact (ih later).trans (Nat.le_max_right _ _)

theorem ofFields_of_increasing {fields : List (Text × Json)} (increasing : (fields.map Prod.fst).Pairwise (· < ·)) :
    ofFields fields = .object fields := by
  have same := Dictionary.ofList_entries ⟨fields, increasing⟩
  rw [ofFields, same]

theorem itemValues?_writtenItems {items : List Json} {d : Nat} (each : ∀ item ∈ items, item.written.value? d = some item) :
    Written.itemValues? d (writtenItems items) = some items := by
  induction items with
  | nil => rfl
  | cons item items ih =>
    obtain ⟨first, later⟩ := List.forall_mem_cons.mp each
    simp [writtenItems, Written.itemValues?, first, ih later]

theorem fieldValues?_writtenFields {fields : List (Text × Json)} {d : Nat}
    (each : ∀ field ∈ fields, field.2.written.value? d = some field.2) :
    Written.fieldValues? d (writtenFields fields) = some fields := by
  induction fields with
  | nil => rfl
  | cons field fields ih =>
    obtain ⟨first, later⟩ := List.forall_mem_cons.mp each
    simp [writtenFields, Written.fieldValues?, first, ih later]

theorem value?_written {j : Json} (ordered : j.Ordered) {d : Nat} (deep : j.depth ≤ d) : j.written.value? d = some j := by
  induction ordered generalizing d with
  | null => cases d <;> rfl
  | bool value => cases d <;> rfl
  | number value => cases d <;> rfl
  | string value => cases d <;> rfl
  | @array items each ih =>
    cases d with
    | zero => exact absurd deep (Nat.not_succ_le_zero _)
    | succ d =>
      have items : Written.itemValues? d (writtenItems items) = some items :=
        itemValues?_writtenItems fun item member =>
          ih item member ((depth_le_itemsDepth member).trans (Nat.le_of_succ_le_succ deep))
      rw [written, Written.value?, items, Option.map_some]
  | @object fields increasing each ih =>
    cases d with
    | zero => exact absurd deep (Nat.not_succ_le_zero _)
    | succ d =>
      have fields : Written.fieldValues? d (writtenFields fields) = some fields :=
        fieldValues?_writtenFields fun field member =>
          ih field member ((depth_le_fieldsDepth member).trans (Nat.le_of_succ_le_succ deep))
      rw [written, Written.value?, fields, Option.map_some, ofFields_of_increasing increasing]

theorem exists_mem_of_itemValues? {items : List Written} {values : List Json} {d : Nat}
    (read : Written.itemValues? d items = some values) : ∀ value ∈ values, ∃ item ∈ items, item.value? d = some value := by
  induction items generalizing values with
  | nil => cases read; exact nofun
  | cons item items ih =>
    simp only [Written.itemValues?, Option.bind_eq_bind, Option.bind_eq_some_iff, Option.pure_def, Option.some.injEq] at read
    obtain ⟨first, readFirst, rest, readRest, rfl⟩ := read
    refine List.forall_mem_cons.mpr ⟨⟨item, List.mem_cons_self, readFirst⟩, fun value member => ?_⟩
    obtain ⟨other, later, readOther⟩ := ih readRest value member
    exact ⟨other, List.mem_cons_of_mem _ later, readOther⟩

theorem exists_mem_of_fieldValues? {fields : List (Option Text × Written)} {values : List (Text × Json)} {d : Nat}
    (read : Written.fieldValues? d fields = some values) :
    ∀ value ∈ values, ∃ field ∈ fields, field.2.value? d = some value.2 := by
  induction fields generalizing values with
  | nil => cases read; exact nofun
  | cons field fields ih =>
    simp only [Written.fieldValues?, Option.bind_eq_bind, Option.bind_eq_some_iff, Option.pure_def, Option.some.injEq] at read
    obtain ⟨name, -, first, readFirst, rest, readRest, rfl⟩ := read
    refine List.forall_mem_cons.mpr ⟨⟨field, List.mem_cons_self, readFirst⟩, fun value member => ?_⟩
    obtain ⟨other, later, readOther⟩ := ih readRest value member
    exact ⟨other, List.mem_cons_of_mem _ later, readOther⟩

theorem ordered_of_value? {w : Written} {j : Json} {d : Nat} (read : w.value? d = some j) : j.Ordered := by
  cases w with
  | null =>
    simp only [Written.value?, Option.some.injEq] at read
    exact read ▸ .null
  | bool value =>
    simp only [Written.value?, Option.some.injEq] at read
    exact read ▸ .bool value
  | number value =>
    simp only [Written.value?, Option.map_eq_some_iff] at read
    obtain ⟨value, -, rfl⟩ := read
    exact .number value
  | string value =>
    simp only [Written.value?, Option.map_eq_some_iff] at read
    obtain ⟨value, -, rfl⟩ := read
    exact .string value
  | array items =>
    cases d with
    | zero => simp only [Written.value?, reduceCtorEq] at read
    | succ d =>
      simp only [Written.value?, Option.map_eq_some_iff] at read
      obtain ⟨values, read, rfl⟩ := read
      refine .array fun value member => ?_
      obtain ⟨item, -, read⟩ := exists_mem_of_itemValues? read value member
      exact ordered_of_value? read
  | object fields =>
    cases d with
    | zero => simp only [Written.value?, reduceCtorEq] at read
    | succ d =>
      simp only [Written.value?, Option.map_eq_some_iff] at read
      obtain ⟨values, read, rfl⟩ := read
      refine .object (Dictionary.ofList values).increasing fun value member => ?_
      obtain ⟨field, -, read⟩ := exists_mem_of_fieldValues? read value (Dictionary.mem_ofList member)
      exact ordered_of_value? read
termination_by d

theorem value?_eq_null_iff {w : Written} {d : Nat} : w.value? d = some .null ↔ w = .null := by
  cases w with
  | null => simp [Written.value?]
  | array items => cases d <;> simp [Written.value?]
  | object fields => cases d <;> simp [Written.value?, ofFields]
  | _ => simp [Written.value?]

end Offside.Json
