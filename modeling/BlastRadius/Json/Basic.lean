import BlastRadius.Json.Number

namespace BlastRadius

/-!
# JSON values

* `Json` — a JSON value, with the fields of an object in order.
* `Json.distinct` — the value in which every object has each key once.
-/

/-- A JSON value. -/
inductive Json where
  | null
  | bool (value : Bool)
  | num (value : Json.Number)
  | str (value : String)
  | arr (items : List Json)
  | obj (fields : List (String × Json))
deriving Repr

namespace Json

/-- A natural number. -/
def nat (n : Nat) : Json :=
  .num (.int n)

/-- A value that may be missing. -/
def ofOption {α : Type} (f : α → Json) : Option α → Json
  | none => .null
  | some a => f a

/-- Puts a value under a key: in the place of the value that is there, or else at the end. -/
def put (key : String) (value : Json) : List (String × Json) → List (String × Json)
  | [] => [(key, value)]
  | field :: fields =>
    if field.1 = key then (key, value) :: fields else field :: put key value fields

mutual
/-- The value in which every object has each key once, with the last value at the first place. -/
def distinct : Json → Json
  | .arr items => .arr (distinctItems items)
  | .obj fields => .obj (distinctFields [] fields)
  | value => value

/-- The items of an array, each with distinct keys. -/
def distinctItems : List Json → List Json
  | [] => []
  | item :: items => item.distinct :: distinctItems items

/-- Puts fields behind those that are there already. -/
def distinctFields (done : List (String × Json)) : List (String × Json) → List (String × Json)
  | [] => done
  | (key, value) :: fields => distinctFields (put key value.distinct done) fields
end

end Json

end BlastRadius
