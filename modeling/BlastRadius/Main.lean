import BlastRadius.Command.Run
import Std.Time.DateTime.Timestamp

namespace BlastRadius.Main

/-!
# The command line

This module only moves data: files of the project into a `Disk`, arguments and input to the command,
and its report to the output and to a file. Analyses are kept for the length of a run.
-/

open Command

/-! ### Loading files -/

/-- Milliseconds since the epoch. -/
def milliseconds (time : IO.FS.SystemTime) : Nat :=
  (time.sec * 1000).toNat + time.nsec.toNat / 1000000

/-- What is at a path: a file, a directory, or nothing that counts. -/
partial def loadEntry? (path : String) : IO (Option Entry) := do
  let here ← IO.FS.realPath path
  let metadata ← here.metadata
  match metadata.type with
  | .file =>
    let bytes ← IO.FS.readBinFile here
    return some (.file ⟨bytes.toList, milliseconds metadata.modified⟩)
  | .dir =>
    let mut children := []
    for child in ← here.readDir do
      if (← child.path.symlinkMetadata).type matches .symlink then continue
      try
        if let some entry ← loadEntry? child.path.toString then
          children := (child.fileName, entry) :: children
      catch _ => continue
    return some (.directory children)
  | _ => return none

/-- The directories above an entry. -/
def nested (entry : Entry) : List String → Entry
  | [] => entry
  | name :: place => .directory [(name, nested entry place)]

/-- The names on an absolute path. -/
def placeOf (path : String) : List String :=
  (path.splitOn "/").filter (!·.isEmpty)

/-- The disk with what is below a path. The path is absolute and leads through no link. -/
def loadDisk (path : String) : IO Disk := do
  match ← loadEntry? path with
  | some entry => return ⟨nested entry (placeOf path), placeOf path⟩
  | none => return .empty

/-! ### Watching -/

/-- Lines with the time of their arrival, latest first, and whether there are no more. -/
structure Inbox where
  lines : List (Nat × String) := []
  isClosed : Bool := false

/-- Collects the lines of the input. -/
partial def listen (input : IO.FS.Stream) (inbox : IO.Ref Inbox) : IO Unit := do
  let line ← input.getLine
  if line.isEmpty then
    inbox.modify fun box => { box with isClosed := true }
  else
    let now ← IO.monoMsNow
    inbox.modify fun box => { box with lines := (now, line) :: box.lines }
    listen input inbox

/-- Applies batches of changes to the project and prints what they do. -/
def deliver (p : Project) (batches : List (List Change)) : IO Project := do
  if batches.isEmpty then return p
  let disk ← loadDisk p.root.spelling
  let (p, output) := watch p disk batches
  IO.print output
  return p

/-- Follows the lines that arrive until there are no more. -/
partial def follow (inbox : IO.Ref Inbox) (p : Project) (pending : Pending) : IO Unit := do
  let box ← inbox.modifyGet fun box => (box, { box with lines := [] })
  let mut p := p
  let mut pending := pending
  for (time, line) in box.lines.reverse do
    let (settled, rest) := pending.settle time
    p ← deliver p settled
    pending := (changesOf line.toList).foldl (fun rest change => rest.push change time) rest
  if box.isClosed then
    discard <| deliver p (batchOf pending.flush.1)
  else
    let (settled, rest) := pending.settle (← IO.monoMsNow)
    p ← deliver p settled
    IO.sleep 10
    follow inbox p rest

/-! ### Running -/

/-- Writes a text to a file, with the directories above it. -/
def save (file : Path) (text : String) : IO Unit := do
  if let some parent := file.parent? then
    if !parent.chars.isEmpty then IO.FS.createDirAll parent.spelling
  IO.FS.writeFile file.spelling text

/-- Runs a command and gives its exit code. -/
def perform (i : Invocation) : IO UInt32 := do
  let given := (i.root.map (·.spelling)).getD (← IO.currentDir).toString
  let located ← (IO.FS.realPath given).toBaseIO
  let (disk, i) ← match located with
    | .ok root => pure (← loadDisk root.toString,
      { i with root := some (Path.ofString root.toString) })
    | .error _ => pure (Disk.empty, { i with root := some (Path.ofString given) })
  match analyzed ⟨disk, none, 0⟩ i with
  | .error failure =>
    IO.eprintln ("error: " ++ failure.message)
    return 1
  | .ok p =>
    match i.action with
    | .watch window =>
      let inbox ← IO.mkRef {}
      discard <| IO.asTask (listen (← IO.getStdin) inbox)
      follow inbox p (.empty window)
      return 0
    | action =>
      let now := (← Std.Time.Timestamp.now).toMillisecondsSinceUnixEpoch.val.toNat
      match report p disk now action with
      | .error failure =>
        IO.eprintln ("error: " ++ failure.message)
        return 1
      | .ok report =>
        if let some (file, text) := report.file then
          save file text
        IO.print report.output
        return 0

end BlastRadius.Main

open BlastRadius in
/-- Runs the command that the arguments ask for. -/
def main (args : List String) : IO UInt32 := do
  match Command.parse args with
  | .error error =>
    IO.eprintln ("error: " ++ error.message)
    return 2
  | .ok (.notice notice verb) =>
    IO.print (notice.text verb)
    return 0
  | .ok (.run invocation) =>
    try
      Main.perform invocation
    catch error =>
      IO.eprintln ("error: " ++ toString error)
      return 1
