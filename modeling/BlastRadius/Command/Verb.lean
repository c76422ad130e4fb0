import BlastRadius.Json.Printer
import BlastRadius.Path.Basic

namespace BlastRadius.Command

/-!
# Options and commands

* `Setting` — what an option sets.
* `Switch` — how an option is written.
* `Verb` — the commands, with their options and arguments.
-/

/-- What an option sets. -/
inductive Setting where
  | root (path : Path)
  | verbose
  | workers (count : Nat)
  | noCache
  | snapshot (file : Path)
  | pretty
  | reverse
  | debounceMs (ms : Nat)
deriving DecidableEq

/-- What is shown instead of running a command. -/
inductive Notice where
  | help
  | version
deriving DecidableEq, Repr

/-- What an option takes. -/
inductive Form where
  /-- No value. -/
  | flag (setting : Setting)
  /-- A value, which may be refused. -/
  | valued (read? : String → Option Setting)
  /-- No value: a notice is shown. -/
  | notice (notice : Notice)

/-- How an option is written. -/
structure Switch where
  name : String
  letter : Option Char
  form : Form
  /-- Whether it may be given more than once. -/
  repeats : Bool := false

/-- The largest number that is read. -/
def numberLimit : Nat := Nat.pow 2 64

/-- A decimal number, with or without a plus. -/
def number? (s : String) : Option Nat :=
  let digits := match s.toList with
    | '+' :: digits => digits
    | digits => digits
  if digits.isEmpty ∨ ¬ digits.all Char.isDigit then none
  else
    let n := digits.foldl (fun n c => 10 * n + (c.toNat - '0'.toNat)) 0
    if n < numberLimit then some n else none

/-- A path, which is not empty. -/
def path? (s : String) : Option Path :=
  if s.isEmpty then none else some (Path.ofString s)

/-- The options that every command has. -/
def globalSwitches : List Switch := [
  ⟨"root", some 'r', .valued fun s => (path? s).map .root, false⟩,
  ⟨"verbose", some 'v', .flag .verbose, true⟩,
  ⟨"workers", none, .valued fun s => (number? s).map .workers, false⟩,
  ⟨"no-cache", none, .flag .noCache, false⟩,
  ⟨"help", some 'h', .notice .help, false⟩,
  ⟨"version", some 'V', .notice .version, false⟩]

/-- What a command has to be given. -/
inductive Operand where
  /-- A path, which is not empty. -/
  | file
  /-- Any text. -/
  | query
deriving DecidableEq, Repr

/-- Whether a text will do. -/
def Operand.accepts (text : String) : Operand → Bool
  | .file => !text.isEmpty
  | .query => true

/-- The commands. -/
inductive Verb where
  | scan
  | impact
  | cycles
  | find
  | deps
  | watch
deriving DecidableEq, Repr

namespace Verb

/-- All the commands. -/
def all : List Verb :=
  [.scan, .impact, .cycles, .find, .deps, .watch]

/-- The name of a command. -/
def name : Verb → String
  | scan => "scan"
  | impact => "impact"
  | cycles => "cycles"
  | find => "find"
  | deps => "deps"
  | watch => "watch"

/-- The command with a name. -/
def ofName? (text : String) : Option Verb :=
  all.find? (·.name == text)

/-- The options of a command. -/
def switches : Verb → List Switch
  | scan => [
      ⟨"snapshot", some 's', .valued fun s => (path? s).map .snapshot, false⟩,
      ⟨"pretty", none, .flag .pretty, false⟩]
  | deps => [⟨"reverse", none, .flag .reverse, false⟩]
  | watch => [⟨"debounce-ms", none, .valued fun s => (number? s).map .debounceMs, false⟩]
  | _ => []

/-- What a command has to be given. -/
def operand? : Verb → Option Operand
  | impact => some .file
  | deps => some .file
  | find => some .query
  | _ => none

end Verb

end BlastRadius.Command
