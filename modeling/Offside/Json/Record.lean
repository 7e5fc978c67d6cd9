import Offside.Json.Reader

/-!
Records in JSON: an object with the fields in any order, or an array with them in the order of declaration.
Fields that are not declared are passed over, and a declared one comes at most once under all its names.
-/
namespace Offside.Json.Record

/-- The fields of a record in declared order; each is declared by the names it goes by. -/
def fields? (declared : List (List String)) : Written → Option (List (Option Written))
  | .array items =>
    if items.length ≤ declared.length then some ((List.range declared.length).map (items[·]?)) else none
  | .object pairs => do
    let pairs ← pairs.mapM fun (name, value) => name.map (·, value)
    declared.mapM fun names =>
      match pairs.filter fun (name, _) => (names.map String.toList).contains name with
      | [] => some none
      | [(_, value)] => some (some value)
      | _ => none
  | _ => none

def text? : Written → Option Text
  | .string value => value
  | _ => none

def bool? : Written → Option Bool
  | .bool value => some value
  | _ => none

def list? (read : Written → Option α) : Written → Option (List α)
  | .array items => items.mapM read
  | _ => none

/-- An absent field takes the default; a null has no place in it. -/
def orDefault (default : α) (read : Written → Option α) : Option Written → Option α
  | none => some default
  | some value => read value

/-- Null is the same as absent. -/
def optional (read : Written → Option α) : Option Written → Option (Option α)
  | none | some .null => some none
  | some value => (read value).map some

end Offside.Json.Record
