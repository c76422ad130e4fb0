import BlastRadius.Json.Basic
import BlastRadius.Json.Token

namespace BlastRadius.Json

/-!
# Trees of a JSON text

A tree is a text read by the grammar of JSON, before anything is asked of its leaves.

* `Tree` — a value whose numbers and strings may stand for nothing.
* `tree?` — the tree of a text.
* `Tree.value?` — the value of a tree of bounded depth.
* `parse?` — the value of a text.
-/

/-- A JSON text read by the grammar. A number or a string that stands for nothing has no value. -/
inductive Tree where
  | null
  | bool (value : Bool)
  | num (value : Option Number)
  | str (value : Option String)
  | arr (items : List Tree)
  | obj (fields : List (Option String × Tree))

mutual
/-- A value at the beginning of a list of tokens, and what follows it. -/
def treeWithin? : (fuel : Nat) → List Token → Option (Tree × List Token)
  | 0, _ => none
  | fuel + 1, tokens =>
    match tokens with
    | .null :: rest => some (.null, rest)
    | .bool value :: rest => some (.bool value, rest)
    | .num value :: rest => some (.num value, rest)
    | .str value :: rest => some (.str value, rest)
    | .openBracket :: .closeBracket :: rest => some (.arr [], rest)
    | .openBracket :: rest => do
      let (items, rest) ← itemsWithin? fuel rest
      return (.arr items, rest)
    | .openBrace :: .closeBrace :: rest => some (.obj [], rest)
    | .openBrace :: rest => do
      let (fields, rest) ← fieldsWithin? fuel rest
      return (.obj fields, rest)
    | _ => none

/-- The items of an array up to its closing bracket, at least one. -/
def itemsWithin? : (fuel : Nat) → List Token → Option (List Tree × List Token)
  | 0, _ => none
  | fuel + 1, tokens => do
    let (item, rest) ← treeWithin? fuel tokens
    match rest with
    | .closeBracket :: rest => some ([item], rest)
    | .comma :: rest =>
      let (items, rest) ← itemsWithin? fuel rest
      return (item :: items, rest)
    | _ => none

/-- The fields of an object up to its closing brace, at least one. -/
def fieldsWithin? : (fuel : Nat) → List Token → Option (List (Option String × Tree) × List Token)
  | 0, _ => none
  | fuel + 1, tokens =>
    match tokens with
    | .str key :: .colon :: rest => do
      let (value, rest) ← treeWithin? fuel rest
      match rest with
      | .closeBrace :: rest => some ([(key, value)], rest)
      | .comma :: rest =>
        let (fields, rest) ← fieldsWithin? fuel rest
        return ((key, value) :: fields, rest)
      | _ => none
    | _ => none
end

/-- The tree of a text. -/
def tree? (s : List Char) : Option Tree := do
  let tokens ← tokens? s
  let (tree, rest) ← treeWithin? tokens.length tokens
  if rest.isEmpty then some tree else none

namespace Tree

mutual
/-- The value of a tree, if all its leaves have one and fewer than `limit` brackets are open at a
    time. -/
def value? (limit : Nat) : Tree → Option Json
  | .null => some .null
  | .bool value => some (.bool value)
  | .num value => value.map .num
  | .str value => value.map .str
  | .arr items =>
    match limit with
    | limit + 2 => (values? (limit + 1) items).map .arr
    | _ => none
  | .obj fields =>
    match limit with
    | limit + 2 => (fieldValues? (limit + 1) fields).map .obj
    | _ => none

/-- The values of the items of an array. -/
def values? (limit : Nat) : List Tree → Option (List Json)
  | [] => some []
  | item :: items => do
    let value ← item.value? limit
    let values ← values? limit items
    return value :: values

/-- The values of the fields of an object, repeated keys included. -/
def fieldValues? (limit : Nat) : List (Option String × Tree) → Option (List (String × Json))
  | [] => some []
  | (key, value) :: fields => do
    let key ← key
    let value ← value.value? limit
    let values ← fieldValues? limit fields
    return (key, value) :: values
end

end Tree

/-- A value may have fewer than this many brackets open at a time. -/
def depthLimit : Nat := 128

/-- The value of a text. Of several fields with one key the last value stays, at the place of the
    first. -/
def parse? (s : List Char) : Option Json := do
  let tree ← tree? s
  let value ← tree.value? depthLimit
  return value.distinct

end BlastRadius.Json
