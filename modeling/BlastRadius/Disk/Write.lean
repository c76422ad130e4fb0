import BlastRadius.Disk.Basic

namespace BlastRadius.Disk

/-!
# Writing to a disk

* `makeDirectory`, `makeDirectories` — new directories.
* `writeFile` — a new file, or new bytes for a file.
* `remove` — taking an entry off.
-/

/-- Where something is to be made: the place of its directory, its name, and whether a separator
    follows the name. -/
structure Spot where
  place : List String
  name : List Char
  hasSlash : Bool

/-- The spot that a path names, unless it names the root. -/
def spot (d : Disk) (p : Path) : Except DiskError (Option Spot) := do
  accept p
  let segs := Component.segments p.chars
  let kept := (segs.reverse.dropWhile List.isEmpty).reverse
  match kept.getLast? with
  | none => .ok none
  | some name =>
    let place ← d.follow (d.start p) kept.dropLast
    match d.at? place.reverse with
    | some (.directory _) => .ok (some ⟨place.reverse, name, kept.length < segs.length⟩)
    | some (.file _) => .error .notDirectory
    | none => .error .notFound

/-- Whether a name only says where to go. -/
def isStep (name : List Char) : Bool :=
  name == ['.'] || name == ['.', '.']

/-- The disk with an entry at a place, instead of the one that is there. -/
def put (d : Disk) (place : List String) (e : Entry) : Disk :=
  { d with top := d.top.alter (fun _ => some e) place }

/-- The disk with a new directory. -/
def makeDirectory (d : Disk) (p : Path) : Except DiskError Disk := do
  match ← d.spot p with
  | none => .error .alreadyExists
  | some spot =>
    let place := spot.place ++ [String.ofList spot.name]
    if isStep spot.name then .error .alreadyExists
    else if isLongName spot.name then .error .nameTooLong
    else if (d.at? place).isSome then .error .alreadyExists
    else .ok (d.put place (.directory []))

/-- The disk after an attempt to make a directory that may be there already, and whether it is there
    now. -/
def ensureDirectory (d : Disk) (p : Path) : Disk × Except DiskError Unit :=
  match d.makeDirectory p with
  | .ok d => (d, .ok ())
  | .error e => if d.isDirectory p then (d, .ok ()) else (d, .error e)

/-- The disk after an attempt to make a directory and all those above it that are missing. What was
    made stays even if the attempt fails. At most `fuel` directories are made. -/
def makeWithin (d : Disk) : (fuel : Nat) → Path → Disk × Except DiskError Unit
  | 0, _ => (d, .error .notFound)
  | fuel + 1, p =>
    if p.chars.isEmpty then (d, .ok ())
    else
      match d.ensureDirectory p with
      | (d, .error .notFound) =>
        match p.parent? with
        | none => (d, .error .notFound)
        | some parent =>
          match d.makeWithin fuel parent with
          | (d, .ok ()) => d.ensureDirectory p
          | failed => failed
      | done => done

/-- The disk after an attempt to make a directory and all those above it that are missing. What was
    made stays even if the attempt fails. -/
def makeDirectories (d : Disk) (p : Path) : Disk × Except DiskError Unit :=
  d.makeWithin (p.components.length + 1) p

/-- The disk with a file of the given bytes. -/
def writeFile (d : Disk) (p : Path) (data : FileData) : Except DiskError Disk := do
  match ← d.spot p with
  | none => .error .isDirectory
  | some spot =>
    if isStep spot.name ∨ spot.hasSlash then .error .isDirectory
    else if isLongName spot.name then .error .nameTooLong
    else
      let place := spot.place ++ [String.ofList spot.name]
      match d.at? place with
      | some (.directory _) => .error .isDirectory
      | _ => .ok (d.put place (.file data))

/-- The disk without the entry that a path leads to, and all below it. -/
def remove (d : Disk) (p : Path) : Disk :=
  match d.locate p with
  | .ok place => if place.isEmpty then d else { d with top := d.top.alter (fun _ => none) place }
  | .error _ => d

end BlastRadius.Disk
