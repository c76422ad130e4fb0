import BlastRadius.Json.Tree
import BlastRadius.Source.Mask
import BlastRadius.Text.Blank

namespace BlastRadius.Json

/-!
# Relaxed JSON

Configuration files may hold comments, and a comma may stand before a closing bracket.

* `dropTrailingCommas` — a text without the commas that stand before a closing bracket.
* `relaxed` — the strict text of a relaxed one.
-/

open Text Source

/-- Whether a closing bracket comes next, apart from blanks. -/
def closesNext (s : List Char) : Bool :=
  match s.dropWhile isBlank with
  | ']' :: _ => true
  | '\x7d' :: _ => true
  | _ => false

/-- A text without the commas that stand, apart from blanks, before a closing bracket. Strings are
    not set apart. -/
def dropTrailingCommas : List Char → List Char
  | [] => []
  | c :: s => if c = ',' ∧ closesNext s then dropTrailingCommas s else c :: dropTrailingCommas s

/-- The strict text of a relaxed one: comments are masked and trailing commas dropped. -/
def relaxed (s : List Char) : List Char :=
  dropTrailingCommas (mask .comments s)

end BlastRadius.Json
