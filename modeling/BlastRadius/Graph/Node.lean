import BlastRadius.Path.Basic
import BlastRadius.Statement.Export

namespace BlastRadius.Graph

/-!
# Analysed files

* `ImportEdge` — one import of a file, with the file that it leads to.
* `FileNode` — one analysed file.
-/

/-- One import of a file. -/
structure ImportEdge where
  source : Path
  /-- The file that the specifier stands for, if it stands for one. -/
  target : Option Path
  specifier : String
  /-- The imported names, as the imported file has them. -/
  symbols : List String
  isTypeOnly : Bool
  isDynamic : Bool
  line : Nat
deriving DecidableEq

/-- One analysed file. -/
structure FileNode where
  path : Path
  relativePath : Path
  imports : List ImportEdge
  exports : List Statement.Export
  /-- Milliseconds since the epoch. -/
  lastModified : Nat
  hash : String
  size : Nat
  lineCount : Nat
deriving DecidableEq

/-- The files that a file imports, as often as it does. -/
def FileNode.targets (n : FileNode) : List Path :=
  n.imports.filterMap (·.target)

/-- The names that a file exports. -/
def FileNode.exportNames (n : FileNode) : List String :=
  n.exports.map (·.name)

end BlastRadius.Graph
