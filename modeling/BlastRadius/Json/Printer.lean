import BlastRadius.Json.Basic

namespace BlastRadius.Json

/-!
# JSON texts

* `quoted` — a string between quotation marks.
* `Layout` — on one line, or over several lines with an indent of two spaces.
* `render` — the text of a value.
-/

/-- A hexadecimal digit in lower case. -/
def hexDigit (n : Nat) : Char :=
  Nat.digitChar n

/-- A character of a string. Quotation marks, backslashes and control characters are escaped. -/
def escaped (c : Char) : List Char :=
  if c = '"' then ['\\', '"']
  else if c = '\\' then ['\\', '\\']
  else if c = '\x08' then ['\\', 'b']
  else if c = '\t' then ['\\', 't']
  else if c = '\n' then ['\\', 'n']
  else if c = '\x0c' then ['\\', 'f']
  else if c = '\r' then ['\\', 'r']
  else if c.toNat < 0x20 then
    ['\\', 'u', '0', '0', hexDigit (c.toNat / 16), hexDigit (c.toNat % 16)]
  else [c]

/-- A string between quotation marks. -/
def quoted (s : String) : List Char :=
  '"' :: s.toList.flatMap escaped ++ ['"']

/-- How the parts of a value are set apart. -/
inductive Layout where
  /-- All on one line, without blanks. -/
  | compact
  /-- One item or field a line, indented by two spaces. -/
  | indented
deriving DecidableEq, Repr

/-- What stands before an item or a closing bracket at some depth. -/
def Layout.break : Layout → Nat → List Char
  | .compact, _ => []
  | .indented, depth => '\n' :: List.replicate (2 * depth) ' '

/-- What stands between a key and its value. -/
def Layout.colon : Layout → List Char
  | .compact => [':']
  | .indented => [':', ' ']

mutual
/-- The text of a value that starts at some depth. -/
def renderAt (layout : Layout) (depth : Nat) : Json → List Char
  | .null => "null".toList
  | .bool true => "true".toList
  | .bool false => "false".toList
  | .num value => value.text
  | .str value => quoted value
  | .arr [] => ['[', ']']
  | .arr (item :: items) =>
    '[' :: layout.break (depth + 1) ++ renderAt layout (depth + 1) item
      ++ renderItems layout (depth + 1) items ++ layout.break depth ++ [']']
  | .obj [] => ['\x7b', '\x7d']
  | .obj ((key, value) :: fields) =>
    '\x7b' :: layout.break (depth + 1) ++ quoted key ++ layout.colon
      ++ renderAt layout (depth + 1) value ++ renderFields layout (depth + 1) fields
      ++ layout.break depth ++ ['\x7d']

/-- The items after the first, each behind a comma. -/
def renderItems (layout : Layout) (depth : Nat) : List Json → List Char
  | [] => []
  | item :: items =>
    ',' :: layout.break depth ++ renderAt layout depth item ++ renderItems layout depth items

/-- The fields after the first, each behind a comma. -/
def renderFields (layout : Layout) (depth : Nat) : List (String × Json) → List Char
  | [] => []
  | (key, value) :: fields =>
    ',' :: layout.break depth ++ quoted key ++ layout.colon ++ renderAt layout depth value
      ++ renderFields layout depth fields
end

/-- The text of a value. -/
def render (layout : Layout) (value : Json) : String :=
  String.ofList (renderAt layout 0 value)

end BlastRadius.Json
