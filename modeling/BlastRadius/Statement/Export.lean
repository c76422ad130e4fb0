import BlastRadius.Statement.Import

namespace BlastRadius.Statement

/-!
# Export statements

* `Export`, `ExportKind` — one exported name.
* `exportList`, `exportAll`, `exportDeclaration`, `exportDefault` — the four forms, as readings.
* `foundExports` — all that the forms find in a text, form by form.
* `exports` — the exported names of a text in source order, each once.
-/

open Text Text.Reading Source

/-- What an exported name stands for. -/
inductive ExportKind where
  | function
  | classDecl
  | interface
  | type
  | variable
  | enum
  | namespaceDecl
  | unknown
deriving DecidableEq, Repr

/-- One exported name. A name that is passed on from another module has the specifier of that module
    as its source. -/
structure Export where
  name : String
  kind : ExportKind
  line : Nat
  isReexport : Bool
  source : Option String
deriving DecidableEq, Repr

/-- The names that a list in braces exports: the last word of each item. -/
def exportedNames (body : List Char) : List String :=
  (pieces (· == ',') body).filterMap fun item => (itemWords item).getLast?.map String.ofList

/-! ### The forms -/

/-- A `type` marker, if there is one. -/
def typeMarker : Reading Unit := do
  let _ ← optional (do text "type"; blanks1)
  return ()

/-- The `from` of an export and the text from the quotation mark on. -/
def fromOpening : Reading (List Char) := do
  text "from"
  blanks
  quote ['"', '\'']

/-- `export { names } from "…"`, where the part from `from` on may be missing. -/
def exportList : Reading (List Char × Option (List Char)) := do
  text "export"
  blanks1
  typeMarker
  let body ← braced
  let opening ← optional (do blanks; fromOpening)
  return (body, opening)

/-- `export * as name from "…"`, where the name may be missing. -/
def exportAll : Reading (List Char) := do
  text "export"
  blanks1
  typeMarker
  text "*"
  blanks
  let _ ← optional (do text "as"; blanks1; let _ ← name; blanks)
  fromOpening

/-- A keyword, up to its end. -/
def keyword (word : String) : Reading Unit := do
  text word
  wordEnd

/-- `function`, which may be a generator. -/
def functionKeyword : Reading ExportKind := do
  keyword "function"
  blanks
  let _ ← optional (text "*")
  return .function

/-- The keywords that declare something, in order of preference. -/
def declarationKeyword : Reading ExportKind :=
  oneOf [
    do text "async"; blanks1; functionKeyword,
    functionKeyword,
    do text "abstract"; blanks1; keyword "class"; return .classDecl,
    do keyword "class"; return .classDecl,
    do keyword "interface"; return .interface,
    do keyword "type"; return .type,
    do text "const"; blanks1; keyword "enum"; return .enum,
    do keyword "enum"; return .enum,
    do keyword "const"; return .variable,
    do keyword "let"; return .variable,
    do keyword "var"; return .variable,
    do keyword "namespace"; return .namespaceDecl,
    do keyword "module"; return .namespaceDecl]

/-- What an exported declaration says. -/
structure Declaration where
  isDefault : Bool
  isAmbient : Bool
  kind : ExportKind
  declared : Option (List Char)

/-- `export type default declare keyword name`, where only `export` and the keyword have to be
    there. -/
def exportDeclaration : Reading Declaration := do
  text "export"
  blanks1
  typeMarker
  let main ← optional (do text "default"; blanks1)
  let ambient ← optional (do text "declare"; blanks1)
  let kind ← declarationKeyword
  blanks
  let declared ← optional wholeName
  return { isDefault := main.isSome, isAmbient := ambient.isSome, kind, declared }

/-- `export default`, whatever follows. -/
def exportDefault : Reading Unit := do
  text "export"
  blanks1
  keyword "default"

/-! ### The exports of a text -/

/-- An export as it is found: its offset, and its rank among those at one offset. -/
structure Found where
  offset : Nat
  rank : Nat
  item : Export
deriving DecidableEq, Repr

/-- The names of export lists. -/
def listed (masked source : List Char) : List Found :=
  (exportList.atWordStarts masked).flatMap fun (here, body, opening) =>
    let offset := offsetOf masked here
    let origin := opening.bind fun opening => literalBody? masked source (offsetOf masked opening)
    (exportedNames body).map fun name => {
      offset, rank := 0
      item := {
        name, kind := .unknown, line := lineOf source offset, isReexport := origin.isSome
        source := origin.map String.ofList } }

/-- The exports of whole modules, under the name `*`. -/
def passedOn (masked source : List Char) : List Found :=
  (exportAll.atWordStarts masked).filterMap fun (here, opening) => do
    let origin ← literalBody? masked source (offsetOf masked opening)
    let offset := offsetOf masked here
    return {
      offset, rank := 0
      item := {
        name := "*", kind := .unknown, line := lineOf source offset, isReexport := true
        source := some (String.ofList origin) } }

/-- The name that a declaration exports: `default`, or the declared one. -/
def Declaration.exportedName? (d : Declaration) : Option String :=
  if d.isDefault then some "default" else d.declared.map String.ofList

/-- The exported declarations that have a name. The kind of an ambient one is not looked at. -/
def declared (masked source : List Char) : List Found :=
  (exportDeclaration.atWordStarts masked).filterMap fun (here, d) => do
    let name ← d.exportedName?
    let offset := offsetOf masked here
    return {
      offset, rank := 0
      item := {
        name, kind := if d.isAmbient then .unknown else d.kind, line := lineOf source offset
        isReexport := false, source := none } }

/-- The offsets at which a declaration is the default export. -/
def declaredDefaults (masked : List Char) : List Nat :=
  (exportDeclaration.atWordStarts masked).filterMap fun (here, d) =>
    if d.isDefault then some (offsetOf masked here) else none

/-- The default exports that declare nothing. They rank behind what else is found at their
    offset. -/
def defaulted (masked source : List Char) : List Found :=
  let known := declaredDefaults masked
  (exportDefault.atWordStarts masked).filterMap fun (here, _) =>
    let offset := offsetOf masked here
    if known.contains offset then none
    else
      some {
        offset, rank := 1
        item := {
          name := "default", kind := .unknown, line := lineOf source offset
          isReexport := false, source := none } }

/-- The first export of each name that is not in `seen`. -/
def firstOfEachName (seen : List String) : List Export → List Export
  | [] => []
  | e :: es =>
    if e.name ∈ seen then firstOfEachName seen es else e :: firstOfEachName (e.name :: seen) es

/-- The order of exports: by offset, then by rank. -/
def Found.before (a b : Found) : Bool :=
  a.offset < b.offset || (a.offset == b.offset && a.rank ≤ b.rank)

/-- All that is found in a masked text, form by form. -/
def foundExports (masked source : List Char) : List Found :=
  listed masked source ++ passedOn masked source ++ declared masked source
    ++ defaulted masked source

/-- The exported names of a masked text in source order. Of several exports of one name the first
    stays. -/
def exports (masked source : List Char) : List Export :=
  firstOfEachName [] (((foundExports masked source).mergeSort Found.before).map (·.item))

end BlastRadius.Statement
