import BlastRadius.Source.Position
import BlastRadius.Text.Reading

namespace BlastRadius.Statement

/-!
# Import statements

Import statements are read off masked text, where neither comments nor the bodies of literals can be
taken for code. The specifier is then read at the same bytes of the source.

* `Import` — one import statement.
* `bindingImport`, `bareImport`, `dynamicImport` — the three forms, as readings.
* `imports` — all the import statements of a text, in source order.
-/

open Text Text.Reading Source

/-- One import statement, with its byte offset. -/
structure Import where
  offset : Nat
  specifier : String
  symbols : List String
  isTypeOnly : Bool
  isDynamic : Bool
deriving DecidableEq, Repr

/-- The words of one item of a list in braces, without a leading `type` marker. -/
def itemWords (item : List Char) : List (List Char) :=
  let item := trim item
  match stripPrefix? "type ".toList item with
  | some item => words (trim item)
  | none => words item

/-- The names that a list in braces takes from the imported module: the first word of each item. -/
def importedNames (body : List Char) : List String :=
  (pieces (· == ',') (body.dropWhile (· == '\x7b'))).filterMap fun item =>
    (itemWords item).head?.map String.ofList

/-- What an import statement says before its specifier, and the text from the quotation mark on. -/
structure ImportHead where
  symbols : List String
  isTypeOnly : Bool
  opening : List Char

/-- The default binding, with the comma that may follow it. -/
def defaultBinding : Reading Piece := do
  let binding ← name
  blanks
  let _ ← optional (text ",")
  blanks
  return binding

/-- The binding of a whole module: `* as name`. -/
def moduleBinding : Reading Piece := do
  text "*"
  blanks
  text "as"
  blanks1
  let binding ← name
  blanks
  return binding

/-- The list of names in braces. -/
def namedBindings : Reading (List Char) := do
  let body ← braced
  blanks
  return body

/-- `import type Default, * as all { named } from "…"`, where `from` is all that has to follow
    `import`. -/
def bindingImport : Reading ImportHead := do
  text "import"
  blanks1
  let marker ← optional (do text "type"; blanks1)
  let main ← optional defaultBinding
  let whole ← optional moduleBinding
  let named ← optional namedBindings
  text "from"
  blanks
  let opening ← quote ['"', '\'']
  return {
    symbols := (main.toList ++ whole.toList).map (fun binding => String.ofList binding.chars)
      ++ (named.map importedNames).getD []
    isTypeOnly := marker.isSome
    opening }

/-- `import "…"`, an import that binds nothing. -/
def bareImport : Reading ImportHead := do
  text "import"
  blanks
  let opening ← quote ['"', '\'']
  return { symbols := [], isTypeOnly := false, opening }

/-- `import("…")`, an import at run time. -/
def dynamicImport : Reading ImportHead := do
  text "import"
  blanks
  text "("
  blanks
  let opening ← quote ['"', '\'', '\x60']
  return { symbols := [], isTypeOnly := false, opening }

/-- The imports of one form, in source order. A statement whose specifier is not closed is left out,
    and so is a dynamic import of a specifier with a hole in it. -/
def importsOf (form : Reading ImportHead) (isDynamic : Bool) (masked source : List Char) :
    List Import :=
  (form.atWordStarts masked).filterMap fun (here, head) => do
    let specifier ← literalBody? masked source (offsetOf masked head.opening)
    if isDynamic && containsText "$\x7b".toList specifier then none
    else
      some {
        offset := offsetOf masked here
        specifier := String.ofList specifier
        symbols := head.symbols
        isTypeOnly := head.isTypeOnly
        isDynamic }

/-- All the import statements of a masked text, by offset. At one offset binding imports come first,
    then bare ones, then dynamic ones. -/
def imports (masked source : List Char) : List Import :=
  (importsOf bindingImport false masked source ++ importsOf bareImport false masked source
      ++ importsOf dynamicImport true masked source).mergeSort
    fun a b => a.offset ≤ b.offset

end BlastRadius.Statement
