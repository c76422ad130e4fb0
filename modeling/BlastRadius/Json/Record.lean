import BlastRadius.Json.Tree

namespace BlastRadius.Json.Tree

/-!
# Records in JSON texts

A record with named fields is written as an object, or as an array of the values of its fields in
order. Fields that the record does not have are passed over, whatever their value is.

* `text?`, `nat?`, `bool?`, `list?`, `nullable?` — plain values.
* `fields?` — the named fields of an object.
* `record?` — the fields of a record in either form.
* `required`, `optional`, `orDefault` — what becomes of a missing field.
-/

variable {α : Type}

/-! ### Plain values -/

/-- A string. -/
def text? : Tree → Option String
  | .str value => value
  | _ => none

/-- A natural number of 64 bits. -/
def nat? : Tree → Option Nat
  | .num (some (.int value)) => if 0 ≤ value then some value.toNat else none
  | _ => none

/-- A truth value. -/
def bool? : Tree → Option Bool
  | .bool value => some value
  | _ => none

/-- A list of values of one form. -/
def list? (item? : Tree → Option α) : Tree → Option (List α)
  | .arr items => items.mapM item?
  | _ => none

/-- A value, or nothing. -/
def nullable? (value? : Tree → Option α) : Tree → Option (Option α)
  | .null => some none
  | tree => (value? tree).map some

/-! ### Records -/

/-- The values under a key, in order. -/
def valuesOf (fields : List (String × Tree)) (name : String) : List Tree :=
  (fields.filter (·.1 == name)).map (·.2)

/-- The fields with their keys, if all the keys stand for strings. -/
def namedFields? : List (Option String × Tree) → Option (List (String × Tree))
  | [] => some []
  | (key, value) :: fields => do
    let key ← key
    let fields ← namedFields? fields
    return (key, value) :: fields

/-- The values of the named fields of an object. No named field may be there twice. -/
def fields? (names : List String) : Tree → Option (List (Option Tree))
  | .obj fields => do
    let fields ← namedFields? fields
    if names.all fun name => (valuesOf fields name).length ≤ 1 then
      some (names.map fun name => (valuesOf fields name).head?)
    else none
  | _ => none

/-- The values of the fields of a record: of an object by name, of an array by position. An array
    has at least `least` values. -/
def record? (names : List String) (least : Nat) : Tree → Option (List (Option Tree))
  | .arr items =>
    if least ≤ items.length ∧ items.length ≤ names.length then
      some (items.map some ++ List.replicate (names.length - items.length) none)
    else none
  | tree => tree.fields? names

/-- A field that has to be there. -/
def required (value? : Tree → Option α) (field : Option Tree) : Option α :=
  field.bind value?

/-- A field that may be missing or null. -/
def optional (value? : Tree → Option α) : Option Tree → Option (Option α)
  | none => some none
  | some tree => tree.nullable? value?

/-- A field that stands for `fallback` when it is missing. -/
def orDefault (value? : Tree → Option α) (fallback : α) : Option Tree → Option α
  | none => some fallback
  | some tree => value? tree

end BlastRadius.Json.Tree
