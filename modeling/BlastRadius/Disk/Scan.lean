import BlastRadius.Disk.Basic
import BlastRadius.Resolve.Extension

namespace BlastRadius

/-!
# The script files of a project

Directories of dependencies, build products and tools are left out, and so are hidden ones.

* `isExcludedName` — the names of such directories.
* `isExcluded` — whether a path goes through one of them below a root.
* `Disk.scan` — the script files below a root.
-/

open Resolve

/-- The directories of dependencies, build products and tools. -/
def excludedNames : List String := [
  "node_modules", "dist", "build", "out", "coverage", ".git", ".next", ".turbo", ".cache", "target"]

/-- Whether a directory with this name is left out. -/
def isExcludedName (name : String) : Bool :=
  excludedNames.contains name || (name.toList.head? == some '.' && name != "." && name != "..")

/-- Whether a component is the name of a directory that is left out. -/
def isExcludedComponent : Component → Bool
  | .name text => isExcludedName text
  | _ => false

/-- Whether a path goes through a directory below `root` that is left out. -/
def isExcluded (root p : Path) : Bool :=
  ((p.relativeTo? root).getD p).components.dropLast.any isExcludedComponent

mutual
/-- The script files at or below an entry that `here` leads to. -/
def Entry.scripts (here : Path) : Entry → List Path
  | .file _ => if isScript here then [here] else []
  | .directory children => if here.isLong then [] else Entry.scriptsIn here children

/-- The script files at or below some entries of the directory that `here` leads to. -/
def Entry.scriptsIn (here : Path) : List (String × Entry) → List Path
  | [] => []
  | (name, e) :: children =>
    (if e.isDirectory && isExcludedName name then [] else e.scripts (here.child name))
      ++ Entry.scriptsIn here children
end

/-- The script files at or below `root`, in the order of their paths. -/
def Disk.scan (d : Disk) (root : Path) : List Path :=
  match d.entry root with
  | .ok e => (e.scripts root).mergeSort Path.precedes
  | .error _ => []

end BlastRadius
