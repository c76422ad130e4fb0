import BlastRadius.Path.Normal
import BlastRadius.Text.Utf8

namespace BlastRadius

/-!
# Disks

A disk is a tree of directories and files without links.

* `Entry` — a file or a directory.
* `Disk` — the tree, and the directory that relative paths start from.
* `Disk.follow` — the place that a path leads to, step by step.
* `Disk.accept`, `Disk.locate` — the same for paths that are short enough.
* `Disk.read`, `Disk.stamp`, `Disk.list`, `Disk.canonical` — what can be asked of it.
-/

/-- A file: its bytes, and when it was last modified in milliseconds since the epoch. -/
structure FileData where
  bytes : List UInt8
  modified : Nat
deriving DecidableEq, Repr

/-- A file, or a directory with named entries. -/
inductive Entry where
  | file (data : FileData)
  | directory (children : List (String × Entry))

/-- Why a disk refuses something. -/
inductive DiskError where
  | notFound
  | alreadyExists
  | notDirectory
  | isDirectory
  /-- A name or a whole path has too many bytes. -/
  | nameTooLong
  /-- There is a null character in a path. -/
  | nullInName
deriving DecidableEq, Repr

/-- The message of the system. -/
def DiskError.message : DiskError → String
  | .notFound => "No such file or directory (os error 2)"
  | .alreadyExists => "File exists (os error 17)"
  | .notDirectory => "Not a directory (os error 20)"
  | .isDirectory => "Is a directory (os error 21)"
  | .nameTooLong => "File name too long (os error 36)"
  | .nullInName => "file name contained an unexpected NUL byte"

/-- The most bytes that a name may have. -/
def nameLimit : Nat := 255

/-- A path has fewer bytes than this. -/
def pathLimit : Nat := 4096

/-- Whether a name has too many bytes. -/
def isLongName (name : List Char) : Bool :=
  nameLimit < Text.byteSize name

/-- Whether a path has too many bytes. -/
def Path.isLong (p : Path) : Bool :=
  pathLimit ≤ Text.byteSize p.chars

namespace Entry

/-- Whether it is a directory. -/
def isDirectory : Entry → Bool
  | .directory _ => true
  | .file _ => false

/-- The entry with a name, if this is a directory that has one. -/
def child? (name : String) : Entry → Option Entry
  | .directory children => (children.find? (·.1 == name)).map (·.2)
  | .file _ => none

/-- The entry at a place below. -/
def find? : (place : List String) → Entry → Option Entry
  | [], e => some e
  | name :: place, e => (e.child? name).bind (find? place)

/-- Entries with the one under a name changed, made or removed. -/
def alterChild (name : String) (f : Option Entry → Option Entry) :
    List (String × Entry) → List (String × Entry)
  | [] => (f none).toList.map fun e => (name, e)
  | (other, e) :: children =>
    if other = name then ((f (some e)).toList.map fun e => (name, e)) ++ children
    else (other, e) :: alterChild name f children

/-- The tree with the entry at a place changed, made or removed. Nothing happens where the directory
    of the place is missing. -/
def alter (f : Option Entry → Option Entry) : (place : List String) → Entry → Entry
  | [], e => (f (some e)).getD e
  | [name], .directory children => .directory (alterChild name f children)
  | name :: place,
    .directory children => .directory (alterChild name (·.map (alter f place)) children)
  | _ :: _, .file data => .file data

end Entry

/-- A tree of directories and files, and the directory that relative paths start from. -/
structure Disk where
  top : Entry
  workdir : List String

namespace Disk

/-- The disk with nothing on it. -/
def empty : Disk :=
  ⟨.directory [], []⟩

/-- The entry at a place. -/
def at? (d : Disk) (place : List String) : Option Entry :=
  d.top.find? place

/-- The place where a step from another place ends. Only from a directory a step can be made, even
    one that leads nowhere. Places are given backwards. -/
def step (d : Disk) (place : List String) (segment : List Char) : Except DiskError (List String) :=
  match d.at? place.reverse with
  | none => .error .notFound
  | some (.file _) => .error .notDirectory
  | some e =>
    if Component.isIdle segment then .ok place
    else if segment = ['.', '.'] then .ok place.tail
    else if isLongName segment then .error .nameTooLong
    else
      let name := String.ofList segment
      if (e.child? name).isSome then .ok (name :: place) else .error .notFound

/-- The place that steps lead to. Places are given backwards. -/
def follow (d : Disk) (place : List String) (segs : List (List Char)) :
    Except DiskError (List String) :=
  segs.foldlM d.step place

/-- Where the steps of a path start. -/
def start (d : Disk) (p : Path) : List String :=
  if p.isAbsolute then [] else d.workdir.reverse

/-- Refuses a path that cannot name anything. -/
def wellFormed (p : Path) : Except DiskError Unit :=
  if p.chars.contains '\x00' then .error .nullInName
  else if p.chars.isEmpty then .error .notFound
  else .ok ()

/-- Refuses a path that cannot name anything, or that is too long to be asked for. -/
def accept (p : Path) : Except DiskError Unit := do
  wellFormed p
  if p.isLong then .error .nameTooLong else .ok ()

/-- The place that a path leads to, however long it is. -/
def walk (d : Disk) (p : Path) : Except DiskError (List String) :=
  (d.follow (d.start p) (Component.segments p.chars)).map List.reverse

/-- The place that a path leads to. -/
def locate (d : Disk) (p : Path) : Except DiskError (List String) := do
  accept p
  d.walk p

/-- The absolute path of a place. -/
def pathOf (place : List String) : Path :=
  Path.ofComponents (.root :: place.map .name)

/-- The absolute path without `.` and `..` that leads to where `p` leads. It is found name by name,
    so that `p` may be of any length. -/
def canonical (d : Disk) (p : Path) : Except DiskError Path := do
  wellFormed p
  return pathOf (← d.walk p)

/-- The entry that a path leads to. -/
def entry (d : Disk) (p : Path) : Except DiskError Entry := do
  match d.at? (← d.locate p) with
  | some e => .ok e
  | none => .error .notFound

/-- Whether a path leads to a directory. -/
def isDirectory (d : Disk) (p : Path) : Bool :=
  match d.entry p with
  | .ok e => e.isDirectory
  | .error _ => false

/-- Whether a path leads to a file. -/
def isFile (d : Disk) (p : Path) : Bool :=
  match d.entry p with
  | .ok e => !e.isDirectory
  | .error _ => false

/-- The file that a path leads to. -/
def read (d : Disk) (p : Path) : Except DiskError FileData := do
  match ← d.entry p with
  | .file data => .ok data
  | .directory _ => .error .isDirectory

/-- The paths of the entries of a directory, seen from `p`. -/
def list (d : Disk) (p : Path) : Except DiskError (List Path) := do
  match ← d.entry p with
  | .directory children => .ok (children.map fun (name, _) => p.child name)
  | .file _ => .error .notDirectory

/-- When an entry was modified, and its size. -/
structure Stamp where
  modified : Nat
  size : Nat
deriving DecidableEq, Repr

/-- The stamp of the file that a path leads to. All directories have the same stamp. -/
def stamp (d : Disk) (p : Path) : Except DiskError Stamp := do
  match ← d.entry p with
  | .file data => .ok ⟨data.modified, data.bytes.length⟩
  | .directory _ => .ok ⟨0, 0⟩

end Disk

end BlastRadius
