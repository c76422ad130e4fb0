import BlastRadius.Command.Verb

namespace BlastRadius.Command

/-!
# Arguments of the command line

Options may stand before and behind the command. What is given behind it counts more. The value of
an option is looked at when reading goes on behind it, and for the last option before the command
that is only when the arguments of the command have been read.

* `Given` — the options and operands that were read.
* `readLevel` — reading the options of one level, up to a command or to the end.
* `Invocation`, `parse` — what is to be run.
-/

/-- Why arguments are refused. -/
inductive UsageError where
  | unknownOption (text : String)
  | missingValue (name : String)
  | unexpectedValue (name : String)
  | invalidValue (text : String)
  | repeated (name : String)
  | unexpectedArgument (text : String)
  | unknownCommand (text : String)
  | missingCommand
  | missingArgument
deriving DecidableEq, Repr

/-- The message for arguments that are refused. -/
def UsageError.message : UsageError → String
  | .unknownOption text => "unexpected argument '" ++ text ++ "' found"
  | .missingValue name => "a value is required for '--" ++ name ++ "' but none was supplied"
  | .unexpectedValue name => "unexpected value for '--" ++ name ++ "' found; no more were expected"
  | .invalidValue text => "invalid value '" ++ text ++ "'"
  | .repeated name => "the argument '--" ++ name ++ "' cannot be used multiple times"
  | .unexpectedArgument text => "unexpected argument '" ++ text ++ "' found"
  | .unknownCommand text => "unrecognized subcommand '" ++ text ++ "'"
  | .missingCommand => "a subcommand is required but one was not provided"
  | .missingArgument => "a required argument was not provided"

/-- Why reading ends early. -/
inductive Stop where
  | refused (error : UsageError)
  | notice (notice : Notice)
deriving DecidableEq, Repr

/-- What was read at one level. -/
structure Given where
  /-- Names of options with what they set, in the order in which they were given. -/
  settings : List (String × Setting) := []
  operand : Option String := none

/-- An option with a value that is still to be looked at. -/
structure Waiting where
  switch : Switch
  read? : String → Option Setting
  value : String

/-- A level with options, and with what an argument that is no option may be. -/
inductive Level where
  /-- Before the command. -/
  | top
  /-- Behind the command. -/
  | inside (verb : Verb)

namespace Level

/-- The options of a level. -/
def switches : Level → List Switch
  | top => globalSwitches
  | inside verb => verb.switches ++ globalSwitches

/-- The option with a name. -/
def byName? (level : Level) (name : String) : Option Switch :=
  level.switches.find? (·.name == name)

/-- The option with a letter. -/
def byLetter? (level : Level) (letter : Char) : Option Switch :=
  level.switches.find? (·.letter == some letter)

end Level

namespace Given

/-- What was read, with one more setting. -/
def set (given : Given) (switch : Switch) (setting : Setting) : Except Stop Given :=
  if !switch.repeats && given.settings.any (·.1 == switch.name)
    then .error (.refused (.repeated switch.name))
  else .ok { given with settings := given.settings ++ [(switch.name, setting)] }

/-- What was read, with a value for an option. -/
def setValue (given : Given) (switch : Switch) (read? : String → Option Setting) (value : String) :
    Except Stop Given :=
  match read? value with
  | some setting => given.set switch setting
  | none => .error (.refused (.invalidValue value))

/-- What was read, with the value that is still to be looked at. -/
def settle (given : Given) : Option Waiting → Except Stop Given
  | none => .ok given
  | some waiting => given.setValue waiting.switch waiting.read? waiting.value

/-- What was read, with an argument that is no option. -/
def addOperand (given : Given) (verb : Verb) (text : String) : Except Stop Given :=
  match given.operand, verb.operand? with
  | none, some operand =>
    if operand.accepts text then .ok { given with operand := some text }
    else .error (.refused (.invalidValue text))
  | _, _ => .error (.refused (.unexpectedArgument text))

end Given

/-! ### Kinds of arguments -/

/-- What an argument looks like. -/
inductive Shape where
  /-- The end of the options. -/
  | fence
  /-- An option by its name, with or without a value. -/
  | long (name : String) (value : Option String)
  /-- Options by their letters. -/
  | letters (letters : List Char)
  /-- Anything else. -/
  | plain

/-- What an argument looks like. -/
def shapeOf (arg : String) : Shape :=
  match arg.toList with
  | ['-', '-'] => .fence
  | '-' :: '-' :: text =>
    match text.dropWhile (· != '=') with
    | [] => .long (String.ofList text) none
    | _ :: value => .long (String.ofList (text.takeWhile (· != '='))) (some (String.ofList value))
  | '-' :: c :: letters => .letters (c :: letters)
  | _ => .plain

/-- Whether an argument can be the value of the option before it. -/
def isValue (arg : String) : Bool :=
  match shapeOf arg with
  | .plain => true
  | _ => false

/-- What was read so far, and the option whose value is still to come. -/
structure Progress where
  given : Given
  pending : Option (Switch × (String → Option Setting)) := none

/-- Reading an option by its name. -/
def readLong (level : Level) (given : Given) (name : String) (value : Option String) :
    Except Stop Progress :=
  match level.byName? name with
  | none => .error (.refused (.unknownOption ("--" ++ name)))
  | some switch =>
    match switch.form, value with
    | .flag setting, none => do return { given := ← given.set switch setting }
    | .notice notice, none => .error (.notice notice)
    | .valued read?, none => .ok { given, pending := some (switch, read?) }
    | .valued read?, some value => do return { given := ← given.setValue switch read? value }
    | _, some _ => .error (.refused (.unexpectedValue name))

/-- A value that follows a letter, with or without an equals sign. -/
def attached : List Char → List Char
  | '=' :: value => value
  | value => value

/-- Reading options by their letters. What follows the letter of an option with a value is the
    value. -/
def readLetters (level : Level) (given : Given) : List Char → Except Stop Progress
  | [] => .ok { given }
  | letter :: letters =>
    match level.byLetter? letter with
    | none => .error (.refused (.unknownOption (String.ofList ['-', letter])))
    | some switch =>
      match switch.form with
      | .flag setting => do readLetters level (← given.set switch setting) letters
      | .notice notice => .error (.notice notice)
      | .valued read? =>
        if letters.isEmpty then .ok { given, pending := some (switch, read?) }
        else do return { given := ← given.setValue switch read? (String.ofList (attached letters)) }

/-- Reading the options in an argument. -/
def readSwitches (level : Level) (given : Given) : Shape → Except Stop Progress
  | .long name value => readLong level given name value
  | .letters letters => readLetters level given letters
  | _ => .ok { given }

/-- Reading arguments none of which is an option. -/
def readOperands (level : Level) (given : Given) : List String → Except Stop Given
  | [] => .ok given
  | arg :: args =>
    match level with
    | .top => .error (.refused (.unexpectedArgument arg))
    | .inside verb => do readOperands level (← given.addOperand verb arg) args

/-- What was read at a level, the value that is still to be looked at, and the command that ended
    the level with the arguments behind it. -/
structure LevelEnd where
  given : Given
  waiting : Option Waiting := none
  command : Option (Verb × List String) := none

/-- What is shown when help is asked for: a notice, if at most one command is named behind
    `help`. -/
def readHelp : List String → Stop
  | [] => .notice .help
  | [name] =>
    if name == "help" || (Verb.ofName? name).isSome then .notice .help
      else .refused (.unknownCommand name)
  | _ :: name :: _ => .refused (.unknownCommand name)

/-- Reading the arguments of a level, up to a command or to the end. -/
def readLevel (level : Level) (given : Given) (waiting : Option Waiting) :
    List String → Except Stop LevelEnd
  | [] => do return { given := ← given.settle waiting }
  | arg :: args =>
    match shapeOf arg with
    | .fence => do return { given := ← readOperands level (← given.settle waiting) args }
    | .plain =>
      match level with
      | .inside verb => do
        readLevel level (← (← given.settle waiting).addOperand verb arg) none args
      | .top =>
        match Verb.ofName? arg with
        | some verb => .ok { given, waiting, command := some (verb, args) }
        | none => .error (if arg == "help" then readHelp args else .refused (.unknownCommand arg))
    | shape =>
      match given.settle waiting with
      | .error stop => .error stop
      | .ok given =>
        match readSwitches level given shape with
        | .error stop => .error stop
        | .ok ⟨given, none⟩ => readLevel level given none args
        | .ok ⟨given, some (switch, read?)⟩ =>
          match args with
          | [] => .error (.refused (.missingValue switch.name))
          | value :: args =>
            if isValue value then readLevel level given (some ⟨switch, read?, value⟩) args
            else .error (.refused (.missingValue switch.name))

/-! ### Invocations -/

/-- What a command does. -/
inductive Action where
  /-- The summary of the graph, and the graph itself to a file. -/
  | scan (snapshot : Option Path) (layout : Json.Layout)
  | impact (file : Path)
  | cycles
  | find (query : String)
  | deps (file : Path) (reverse : Bool)
  | watch (debounceMs : Nat)

/-- What is to be run. -/
structure Invocation where
  root : Option Path
  workers : Nat
  useCache : Bool
  action : Action

/-- What the arguments ask for. -/
inductive Request where
  | run (invocation : Invocation)
  | notice (notice : Notice) (verb : Option Verb)

/-- The first of the settings that has a given form. -/
def setting? {α : Type} (pick? : Setting → Option α) (given : Given) : Option α :=
  given.settings.findSome? fun entry => pick? entry.2

/-- Whether a setting was given. -/
def isSet (setting : Setting) (given : Given) : Bool :=
  given.settings.any (·.2 == setting)

/-- What a command does with its options and its operand. -/
def actionOf (verb : Verb) (given : Given) : Except UsageError Action :=
  let operand (make : String → Action) : Except UsageError Action :=
    match given.operand with
    | some text => .ok (make text)
    | none => .error .missingArgument
  match verb with
  | .scan =>
    let snapshot := setting? (fun | .snapshot file => some file | _ => none) given
    .ok (.scan snapshot (if isSet .pretty given then .indented else .compact))
  | .impact => operand fun file => .impact (Path.ofString file)
  | .cycles => .ok .cycles
  | .find => operand .find
  | .deps => operand fun file => .deps (Path.ofString file) (isSet .reverse given)
  | .watch => .ok (.watch ((setting? (fun | .debounceMs ms => some ms | _ => none) given).getD 200))

/-- What is to be run, from the options before and behind the command. -/
def invocation (outer inner : Given) (action : Action) : Invocation where
  root := (rootOf inner).or (rootOf outer)
  workers := ((workersOf inner).or (workersOf outer)).getD 4
  useCache := !(isSet .noCache inner || isSet .noCache outer)
  action
where
  rootOf (given : Given) : Option Path :=
    setting? (fun | .root path => some path | _ => none) given
  workersOf (given : Given) : Option Nat :=
    setting? (fun | .workers count => some count | _ => none) given

/-- What the end of reading asks for. -/
def Stop.toRequest (verb : Option Verb) : Stop → Except UsageError Request
  | .refused error => .error error
  | .notice shown => .ok (.notice shown verb)

/-- What arguments ask for. -/
def parse (args : List String) : Except UsageError Request :=
  match readLevel .top {} none args with
  | .error stop => stop.toRequest none
  | .ok ⟨_, _, none⟩ => .error .missingCommand
  | .ok ⟨outer, waiting, some (verb, args)⟩ =>
    match readLevel (.inside verb) {} none args with
    | .error stop => stop.toRequest (some verb)
    | .ok inner =>
      match outer.settle waiting with
      | .error stop => stop.toRequest none
      | .ok outer => do return .run (invocation outer inner.given (← actionOf verb inner.given))

end BlastRadius.Command
