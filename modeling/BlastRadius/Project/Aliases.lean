import BlastRadius.Disk.Basic
import BlastRadius.Json.Record
import BlastRadius.Json.Relaxed
import BlastRadius.Resolve.Alias
import BlastRadius.Text.Utf8

namespace BlastRadius.Project

/-!
# The alias table of a project

Aliases come from the compiler options of a project and from its workspace packages. What is missing
or malformed is passed over.

* `CompilerOptions`, `Manifest` — what is read from configuration files.
* `compilerAliases`, `workspaceAliases` — the two sources.
* `loadAliases` — the alias table of a project.
-/

open Json Json.Tree Resolve Text

/-! ### Configuration files -/

/-- The options that say how specifiers are resolved. -/
structure CompilerOptions where
  baseUrl : Option String
  /-- Patterns with what they stand for. -/
  paths : List (String × Json)

/-- The paths of compiler options: an object with any values. -/
def paths? : Tree → Option (List (String × Json))
  | .obj fields => do
    let fields ← fieldValues? (depthLimit - 3) fields
    return fields.foldl (fun done (key, value) => put key value.distinct done) []
  | _ => none

/-- Compiler options. -/
def compilerOptions? (t : Tree) : Option CompilerOptions := do
  match ← t.record? ["baseUrl", "paths"] 1 with
  | [baseUrl, paths] =>
    return { baseUrl := ← optional text? baseUrl, paths := ← orDefault paths? [] paths }
  | _ => none

/-- A file with compiler options. -/
def compilerFile? (t : Tree) : Option CompilerOptions := do
  match ← t.record? ["compilerOptions"] 0 with
  | [options] => orDefault compilerOptions? ⟨none, []⟩ options
  | _ => none

/-- The manifest of a package. -/
structure Manifest where
  name : Option String
  types : Option String
  module : Option String
  main : Option String
  /-- The patterns of the directories of workspace packages. -/
  workspaces : Option (List String)

/-- The patterns of workspace packages: a list, or an object with a list. -/
def workspaces? (t : Tree) : Option (List String) := do
  let _ ← t.value? (depthLimit - 1)
  match t.list? text? with
  | some patterns => return patterns
  | none =>
    match ← t.fields? ["packages"] with
    | [packages] => orDefault (list? text?) [] packages
    | _ => none

/-- The manifest of a package. -/
def manifest? (t : Tree) : Option Manifest := do
  match ← t.record? ["name", "types", "module", "main", "workspaces"] 5 with
  | [name, types, module, main, workspaces] =>
    return {
      name := ← optional text? name
      types := ← optional text? types
      module := ← optional text? module
      main := ← optional text? main
      workspaces := ← optional workspaces? workspaces }
  | _ => none

/-- What a configuration file holds, if it can be read. -/
def readConfig? {α : Type} (d : Disk) (form? : Tree → Option α) (p : Path) : Option α := do
  let data ← (d.read p).toOption
  let content ← decode? data.bytes
  let tree ← tree? (relaxed content)
  form? tree

/-! ### Compiler options -/

/-- A text without a star at its end. -/
def withoutStar (s : List Char) : List Char :=
  if s.getLast? = some '*' then s.dropLast else s

/-- The path that a target of a pattern stands for. -/
def targetPath (base : Path) (target : String) : Path :=
  (base.child (String.ofList (withoutStar target.toList))).normalize

/-- The strings of a list. Anything else has none. -/
def stringsOf : Json → List String
  | .arr items => items.filterMap fun
    | .str s => some s
    | _ => none
  | _ => []

/-- The alias that a pattern of compiler options gives, unless it stands for nothing. -/
def aliasOf? (base : Path) (pattern : String) (targets : Json) : Option Alias :=
  match stringsOf targets with
  | [] => none
  | targets => some ⟨pattern, targets.map (targetPath base)⟩

/-- The files that compiler options are looked for in. -/
def compilerFiles : List String :=
  ["tsconfig.json", "jsconfig.json"]

/-- The first compiler options that can be read, and the directory that they stand in. -/
def findOptions? (d : Disk) (root : Path) : Option (Path × CompilerOptions) :=
  compilerFiles.findSome? fun name =>
    let file := root.child name
    (readConfig? d compilerFile? file).map fun options => (file.parent?.getD root, options)

/-- The alias table that compiler options give. -/
def compilerAliases (d : Disk) (root : Path) : AliasTable :=
  match findOptions? d root with
  | none => .bare root
  | some (directory, options) =>
    let base := options.baseUrl.map fun url => (directory.child url).normalize
    {
      baseUrl := base.getD root
      entries := options.paths.filterMap fun (pattern, targets) =>
        aliasOf? (base.getD directory) pattern targets }

/-! ### Workspace packages -/

/-- A text without any `./` at its beginning. -/
def withoutDots : List Char → List Char
  | '.' :: '/' :: s => withoutDots s
  | s => s

/-- A text without the given end. -/
def stripSuffix? (tail s : List Char) : Option (List Char) :=
  (stripPrefix? tail.reverse s.reverse).map List.reverse

/-- The directories that a pattern stands for: all those in a directory, or one. -/
def expandPattern (d : Disk) (root : Path) (pattern : String) : List Path :=
  let text := withoutDots pattern.toList
  match (stripSuffix? ['/', '*', '*'] text).or (stripSuffix? ['/', '*'] text) with
  | some parent =>
    match d.list (root.child (String.ofList parent)) with
    | .ok children => (children.filter d.isDirectory).mergeSort Path.precedes
    | .error _ => []
  | none =>
    let directory := root.child (String.ofList text)
    if d.isDirectory directory then [directory] else []

/-- The files that a package may start with, before those that its manifest names. -/
def entryCandidates : List String :=
  ["src/index.ts", "src/index.tsx", "index.ts", "index.tsx"]

/-- The files that a package may start with, behind those that its manifest names. -/
def fallbackEntries : List String :=
  ["src/index.js", "index.js"]

/-- The file that a package starts with, or else its directory. -/
def packageEntry (d : Disk) (directory : Path) (manifest : Manifest) : Path :=
  let declared := [manifest.types, manifest.module, manifest.main].filterMap id
  let candidates := entryCandidates.map directory.child
    ++ declared.map (fun file => (directory.child file).normalize)
    ++ fallbackEntries.map directory.child
  (candidates.find? d.isFile).getD directory

/-- The aliases of a package: its name for its first file, and all below its name for its
    directory. -/
def packageAliases (d : Disk) (directory : Path) : List Alias :=
  match readConfig? d manifest? (directory.child "package.json") with
  | none => []
  | some manifest =>
    match manifest.name with
    | none => []
    | some name => [⟨name, [packageEntry d directory manifest]⟩, ⟨name ++ "/*", [directory]⟩]

/-- The aliases of the workspace packages of a project. -/
def workspaceAliases (d : Disk) (root : Path) : List Alias :=
  match (readConfig? d manifest? (root.child "package.json")).bind (·.workspaces) with
  | none => []
  | some patterns => (patterns.flatMap (expandPattern d root)).flatMap (packageAliases d)

/-- The alias table of a project. -/
def loadAliases (d : Disk) (root : Path) : AliasTable :=
  let table := compilerAliases d root
  { table with entries := table.entries ++ workspaceAliases d root }

end BlastRadius.Project
