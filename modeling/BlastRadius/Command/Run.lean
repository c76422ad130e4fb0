import BlastRadius.Change.Stream
import BlastRadius.Command.Arguments
import BlastRadius.Graph.Report
import BlastRadius.Graph.Saved
import BlastRadius.Project.Basic

namespace BlastRadius.Command

/-!
# Running a command

* `World` — what a run starts from and leaves behind.
* `report` — what a command says about an analysed project.
* `watch` — following changes that are read from the input.
* `run` — a whole run.
-/

open BlastRadius.Graph Project Resolve

/-- Why a command fails. -/
inductive Failure where
  | cannotOpen (error : OpenError)
  | cannotSave (error : SaveError)
  /-- The file is not in the graph. -/
  | unknownFile (file : Path)

/-- The message for a command that fails. -/
def Failure.message : Failure → String
  | .cannotOpen error => error.message
  | .cannotSave error => error.message
  | .unknownFile file => "File not found in graph: " ++ file.spelling

/-- What a command says: a file to be written first, and its output. -/
structure Report where
  file : Option (Path × String) := none
  output : String

/-- A value on lines of its own. -/
def printed (value : Json) : String :=
  value.render .indented ++ "\n"

/-- The path of a file that was named on the command line. Relative paths start from the root. -/
def lookup (p : Project) (d : Disk) (file : Path) : Path :=
  match d.canonical (p.identity file) with
  | .ok path => path
  | .error _ => p.identity file

/-- A path as seen from the root of a graph. -/
def shown (g : Graph) (path : Path) : Json :=
  pathJson ((path.relativeTo? g.root).getD path)

/-- The neighbours of a file. -/
def neighbours (g : Graph) (path : Path) (reverse : Bool) : Json :=
  let (key, files) :=
    if reverse then ("dependents", g.dependentsOf path) else ("dependencies", g.dependenciesOf path)
  .obj [("file", shown g path), (key, .arr (files.map (shown g)))]

/-- What a command says about an analysed project. -/
def report (p : Project) (d : Disk) (now : Nat) : Action → Except Failure Report
  | .scan file layout =>
    .ok {
      file := file.map fun file => (file, (p.graph.snapshot now).render layout)
      output := printed p.graph.summary.toJson }
  | .impact file =>
    match p.graph.impact? (lookup p d file) with
    | some impact => .ok { output := printed impact.toJson }
    | none => .error (.unknownFile file)
  | .cycles => .ok { output := printed (.arr (p.graph.cycles.map (·.toJson))) }
  | .find query => .ok { output := printed (.arr ((p.graph.find query).map (·.toJson))) }
  | .deps file reverse =>
    let path := lookup p d file
    if p.graph.contains path then .ok { output := printed (neighbours p.graph path reverse) }
    else .error (.unknownFile file)
  | .watch _ => .ok { output := "" }

/-! ### Following changes -/

/-- The changes in the lines of a text. Lines that are no change are passed over. -/
def changesOf (input : List Char) : List Change :=
  (Text.pieces (· == '\n') input).filterMap fun line => (Change.parse line).toOption

/-- The project after a batch of changes, and the summary of its graph if that changed. -/
def applyBatch (p : Project) (d : Disk) (batch : List Change) : Project × String :=
  let (p, applied) := p.applyChanges d batch
  (p, if 0 < applied then printed p.graph.summary.toJson else "")

/-- The project after all batches of changes, and all that is printed. -/
def watch (p : Project) (d : Disk) : List (List Change) → Project × String
  | [] => (p, "")
  | batch :: rest =>
    let (p, output) := applyBatch p d batch
    let (p, outputs) := watch p d rest
    (p, output ++ outputs)

/-! ### Whole runs -/

/-- What a run starts from and leaves behind. -/
structure World where
  disk : Disk
  /-- The analyses that are kept between runs. -/
  store : Option (CacheStore Fingerprint)
  /-- The time of the run in milliseconds since the epoch. -/
  now : Nat

/-- What a run answers. -/
inductive Outcome where
  | done (output : String)
  | failed (failure : Failure)

/-- The settings of an analysis that a run asks for. -/
def configOf (i : Invocation) : Config :=
  { workers := i.workers, useCache := i.useCache, debounceMs := debounce }
where
  debounce : Nat :=
    match i.action with
    | .watch ms => ms
    | _ => 200

/-- The project of a run, analysed. -/
def analyzed (w : World) (i : Invocation) : Except Failure Project :=
  let root := i.root.getD (Disk.pathOf w.disk.workdir)
  match Project.openAt w.disk root (configOf i) w.store with
  | .error error => .error (.cannotOpen error)
  | .ok p => .ok (p.analyze w.disk)

/-- The world with the analyses that a project keeps. -/
def World.keeping (w : World) (p : Project) : World :=
  match p.cache with
  | some cache => { w with store := cache.disk }
  | none => w

/-- A run whose changes, if it watches for any, arrive at once. -/
def run (w : World) (i : Invocation) (input : List Char) : World × Outcome :=
  match analyzed w i with
  | .error failure => (w, .failed failure)
  | .ok p =>
    match i.action with
    | .watch window =>
      let events := (changesOf input).map fun change => (⟨0, change⟩ : Event)
      let (p, output) := watch p w.disk (batches window .deliver 0 events)
      (w.keeping p, .done output)
    | action =>
      let w := w.keeping p
      match report p w.disk w.now action with
      | .error failure => (w, .failed failure)
      | .ok ⟨none, output⟩ => (w, .done output)
      | .ok ⟨some (file, text), output⟩ =>
        match saveText w.disk file text w.now with
        | (disk, .error error) => ({ w with disk }, .failed (.cannotSave error))
        | (disk, .ok ()) => ({ w with disk }, .done output)

/-! ### Notices -/

/-- The name of the program. -/
def programName : String := "ripple"

/-- The version of the program. -/
def programVersion : String := "0.1.0"

/-- The text of a notice. -/
def Notice.text (verb : Option Verb) : Notice → String
  | .version =>
    let name := match verb with
      | some verb => programName ++ "-" ++ verb.name
      | none => programName
    name ++ " " ++ programVersion ++ "\n"
  | .help =>
    "Usage: " ++ programName ++ " [OPTIONS] <COMMAND>\n\nCommands: "
      ++ ", ".intercalate (Verb.all.map (·.name)) ++ "\n"

end BlastRadius.Command
