import BlastRadius.Graph.Basic
import BlastRadius.Json.Printer
import BlastRadius.Json.Record

namespace BlastRadius.Graph

/-!
# Snapshots

A snapshot is a plain picture of a graph that can be written as JSON and read back.

* `Snapshot`, `snapshot` — the picture of a graph.
* `Snapshot.toGraph` — the graph of a snapshot.
* `Snapshot.render`, `Snapshot.read` — its text.
-/

/-- An analysed file with the numbers of its neighbours. -/
structure SnapshotNode where
  node : FileNode
  dependentCount : Nat
  dependencyCount : Nat
deriving DecidableEq

/-- An import between two analysed files. -/
structure SnapshotEdge where
  source : Path
  target : Path
deriving DecidableEq

/-- A plain picture of a graph. -/
structure Snapshot where
  version : String
  root : Path
  /-- Milliseconds since the epoch. -/
  lastUpdated : Nat
  nodes : List SnapshotNode
  edges : List SnapshotEdge
deriving DecidableEq

/-- The version of snapshots that can be read. -/
def snapshotVersion : String := "1.0"

/-- The imports between analysed files, by importing file and then by imported file. -/
def edges (g : Graph) : List SnapshotEdge :=
  (g.dependencies.toList.filter fun entry => g.contains entry.1).flatMap fun (source, targets) =>
    (targets.paths.filter g.contains).map fun target => ⟨source, target⟩

/-- The picture of a graph that was last changed at `lastUpdated`. -/
def snapshot (g : Graph) (lastUpdated : Nat) : Snapshot where
  version := snapshotVersion
  root := g.root
  lastUpdated
  nodes := g.files.map fun node => {
    node
    dependentCount := g.dependentCount node.path
    dependencyCount := g.dependencyCount node.path }
  edges := g.edges

/-- The graph of the files of a snapshot. -/
def Snapshot.toGraph (s : Snapshot) : Graph :=
  Graph.ofNodes s.root (s.nodes.map (·.node))

/-! ### Writing -/

/-- A path as JSON. -/
def pathJson (p : Path) : Json :=
  .str p.spelling

/-- Strings as JSON. -/
def textsJson (texts : List String) : Json :=
  .arr (texts.map .str)

/-- The name of an export kind. -/
def kindName : Statement.ExportKind → String
  | .function => "function"
  | .classDecl => "class"
  | .interface => "interface"
  | .type => "type"
  | .variable => "variable"
  | .enum => "enum"
  | .namespaceDecl => "namespace"
  | .unknown => "unknown"

/-- An import as JSON. -/
def ImportEdge.toJson (e : ImportEdge) : Json :=
  .obj [
    ("source", pathJson e.source),
    ("target", .ofOption pathJson e.target),
    ("specifier", .str e.specifier),
    ("symbols", textsJson e.symbols),
    ("isTypeOnly", .bool e.isTypeOnly),
    ("isDynamic", .bool e.isDynamic),
    ("line", .nat e.line)]

/-- An export as JSON. -/
def exportJson (e : Statement.Export) : Json :=
  .obj [
    ("name", .str e.name),
    ("kind", .str (kindName e.kind)),
    ("line", .nat e.line),
    ("isReexport", .bool e.isReexport),
    ("source", .ofOption .str e.source)]

/-- The fields of an analysed file. -/
def FileNode.jsonFields (n : FileNode) : List (String × Json) := [
  ("path", pathJson n.path),
  ("relativePath", pathJson n.relativePath),
  ("imports", .arr (n.imports.map (·.toJson))),
  ("exports", .arr (n.exports.map exportJson)),
  ("lastModified", .nat n.lastModified),
  ("hash", .str n.hash),
  ("size", .nat n.size),
  ("lineCount", .nat n.lineCount)]

/-- An analysed file as JSON. -/
def FileNode.toJson (n : FileNode) : Json :=
  .obj n.jsonFields

/-- A file of a snapshot as JSON: one object with all the fields. -/
def SnapshotNode.toJson (n : SnapshotNode) : Json :=
  .obj (n.node.jsonFields ++ [
    ("dependentCount", .nat n.dependentCount),
    ("dependencyCount", .nat n.dependencyCount)])

/-- An import of a snapshot as JSON. -/
def SnapshotEdge.toJson (e : SnapshotEdge) : Json :=
  .obj [("source", pathJson e.source), ("target", pathJson e.target)]

/-- A snapshot as JSON. -/
def Snapshot.toJson (s : Snapshot) : Json :=
  .obj [
    ("version", .str s.version),
    ("root", pathJson s.root),
    ("lastUpdated", .nat s.lastUpdated),
    ("nodes", .arr (s.nodes.map (·.toJson))),
    ("edges", .arr (s.edges.map (·.toJson)))]

/-- The text of a snapshot. -/
def Snapshot.render (layout : Json.Layout) (s : Snapshot) : String :=
  s.toJson.render layout

/-! ### Reading -/

open Json Json.Tree

/-- A path. -/
def path? (t : Tree) : Option Path :=
  t.text?.map Path.ofString

/-- The export kind with a given name. -/
def kindOfName? : String → Option Statement.ExportKind
  | "function" => some .function
  | "class" => some .classDecl
  | "interface" => some .interface
  | "type" => some .type
  | "variable" => some .variable
  | "enum" => some .enum
  | "namespace" => some .namespaceDecl
  | "unknown" => some .unknown
  | _ => none

/-- An export kind: its name, or an object with nothing under its name. -/
def kind? : Tree → Option Statement.ExportKind
  | .str (some name) => kindOfName? name
  | .obj [(some name, .null)] => kindOfName? name
  | .obj [(some name, .obj [])] => kindOfName? name
  | _ => none

/-- An import. -/
def importEdge? (t : Tree) : Option ImportEdge := do
  match ← t.record?
      ["source", "target", "specifier", "symbols", "isTypeOnly", "isDynamic", "line"] 7 with
  | [source, target, specifier, symbols, isTypeOnly, isDynamic, line] =>
    return {
      source := ← required path? source
      target := ← optional path? target
      specifier := ← required text? specifier
      symbols := ← required (list? text?) symbols
      isTypeOnly := ← required bool? isTypeOnly
      isDynamic := ← required bool? isDynamic
      line := ← required nat? line }
  | _ => none

/-- An export. -/
def export? (t : Tree) : Option Statement.Export := do
  match ← t.record? ["name", "kind", "line", "isReexport", "source"] 5 with
  | [name, kind, line, isReexport, source] =>
    return {
      name := ← required text? name
      kind := ← required kind? kind
      line := ← required nat? line
      isReexport := ← required bool? isReexport
      source := ← optional text? source }
  | _ => none

/-- The names of the fields of a file of a snapshot. -/
def nodeFields : List String := [
  "path", "relativePath", "imports", "exports", "lastModified", "hash", "size", "lineCount",
  "dependentCount", "dependencyCount"]

/-- A file of a snapshot, which is an object all of whose parts have a value. -/
def snapshotNode? (t : Tree) : Option SnapshotNode := do
  let _ ← t.value? (depthLimit - 2)
  match ← t.fields? nodeFields with
  | [path, relativePath, imports, exports, lastModified, hash, size, lineCount, dependents,
    dependencies] =>
    return {
      node := {
        path := ← required path? path
        relativePath := ← required path? relativePath
        imports := ← required (list? importEdge?) imports
        exports := ← required (list? export?) exports
        lastModified := ← required nat? lastModified
        hash := ← required text? hash
        size := ← required nat? size
        lineCount := ← required nat? lineCount }
      dependentCount := ← required nat? dependents
      dependencyCount := ← required nat? dependencies }
  | _ => none

/-- An import of a snapshot. -/
def snapshotEdge? (t : Tree) : Option SnapshotEdge := do
  match ← t.record? ["source", "target"] 2 with
  | [source, target] =>
    return { source := ← required path? source, target := ← required path? target }
  | _ => none

/-- A snapshot of any version. -/
def snapshot? (t : Tree) : Option Snapshot := do
  match ← t.record? ["version", "root", "lastUpdated", "nodes", "edges"] 5 with
  | [version, root, lastUpdated, nodes, edges] =>
    return {
      version := ← required text? version
      root := ← required path? root
      lastUpdated := ← required nat? lastUpdated
      nodes := ← required (list? snapshotNode?) nodes
      edges := ← required (list? snapshotEdge?) edges }
  | _ => none

/-- Why a snapshot cannot be read. -/
inductive SnapshotError where
  /-- There is no such file, or it holds no text. -/
  | unreadable
  /-- The text is no snapshot. -/
  | malformed
  /-- The snapshot has another version. -/
  | unsupported (version : String)
deriving DecidableEq, Repr

/-- The message for a snapshot that cannot be read from a file. -/
def SnapshotError.message (file : Path) : SnapshotError → String
  | .unreadable => "Failed to read snapshot " ++ file.spelling
  | .malformed => "Malformed snapshot " ++ file.spelling
  | .unsupported version =>
    "Unsupported snapshot version " ++ version ++ " (expected " ++ snapshotVersion ++ ")"

/-- The snapshot that a text holds. -/
def Snapshot.read (s : List Char) : Except SnapshotError Snapshot :=
  match (tree? s).bind snapshot? with
  | none => .error .malformed
  | some snapshot =>
    if snapshot.version = snapshotVersion then .ok snapshot
      else .error (.unsupported snapshot.version)

end BlastRadius.Graph
