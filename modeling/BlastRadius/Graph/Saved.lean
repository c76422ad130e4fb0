import BlastRadius.Disk.Write
import BlastRadius.Graph.Snapshot
import BlastRadius.Text.Utf8

namespace BlastRadius.Graph

/-!
# Saved snapshots

* `saveText` — writing the text of a snapshot to a file, with the directories above it.
* `Snapshot.load` — the snapshot in a file.
-/

open Text

/-- Why a snapshot cannot be saved. -/
inductive SaveError where
  /-- The directory of the file cannot be made. -/
  | directory (cause : DiskError)
  /-- The file cannot be written. -/
  | file (path : Path) (cause : DiskError)

/-- What could not be done, apart from its cause. -/
def SaveError.summary : SaveError → String
  | .directory cause => cause.message
  | .file path _ => "Failed to write snapshot " ++ path.spelling

/-- The message for a snapshot that cannot be saved. -/
def SaveError.message : SaveError → String
  | .directory cause => cause.message
  | .file path cause => SaveError.summary (.file path cause) ++ ": " ++ cause.message

/-- The disk after an attempt to write a text to a file, with the directories above it. Directories
    that were made stay even if the attempt fails. -/
def saveText (d : Disk) (file : Path) (text : String) (now : Nat) : Disk × Except SaveError Unit :=
  let (d, made) : Disk × Except DiskError Unit := match file.parent? with
    | none => (d, .ok ())
    | some parent => d.makeDirectories parent
  match made with
  | .error cause => (d, .error (.directory cause))
  | .ok () =>
    match d.writeFile file ⟨utf8 text.toList, now⟩ with
    | .error cause => (d, .error (.file file cause))
    | .ok d => (d, .ok ())

/-- The snapshot in a file. -/
def Snapshot.load (d : Disk) (file : Path) : Except SnapshotError Snapshot :=
  match (d.read file).toOption.bind fun data => decode? data.bytes with
  | none => .error .unreadable
  | some content => Snapshot.read content

end BlastRadius.Graph
