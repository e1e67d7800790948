import ProjectFile.Path.Basic
import ProjectFile.Report

/-!
The command line: `read PATH` with its options, and options that may stand before or after `read`.
An option's value follows as the next argument or is attached to the option. A value that follows
waits until the next argument has been looked at, so of two mistakes the later one is told if it is
an option nobody knows. Options may not be repeated on one side of `read`. Arguments are bytes, and
only those that are not paths have to be text.
-/

namespace ProjectFile.CommandLine

abbrev dash : UInt8 := 0x2D

abbrev equals : UInt8 := 0x3D

/-- Why a command line asks for nothing that can be done; help and version are asked for. -/
inductive UsageError where
  | help
  | version
  | nothingGiven
  | missingCommand
  | unknownCommand
  | unknownArgument
  | missingPath
  | badValue
  | unwantedValue
  | conflict
deriving DecidableEq

def UsageError.message : UsageError → Text
  | .help => "help was asked for"
  | .version => "the version was asked for"
  | .nothingGiven => "nothing is given"
  | .missingCommand => "a command is missing"
  | .unknownCommand => "the command is not known"
  | .unknownArgument => "an argument is not known"
  | .missingPath => "the path of a project is missing"
  | .badValue => "a value is missing or cannot be used"
  | .unwantedValue => "a flag takes no value"
  | .conflict => "an option is repeated, or two options exclude each other"

structure ReadCommand where
  project : Path
  format : Format
  noEvaluate : Bool
  engine? : Option Path
  output? : Option Path
deriving DecidableEq

structure Arguments where
  read : ReadCommand
  logLevel? : Option Text
  verbose : Bool
  quiet : Bool
deriving DecidableEq

/-- The two sides of the command name. -/
inductive Side where
  | before
  | after
deriving DecidableEq

/-- What takes a value. -/
inductive Slot where
  | project
  | format
  | engine
  | output
  | logLevel
deriving DecidableEq

/-- What takes none. -/
inductive Flag where
  | noEvaluate
  | verbose
  | quiet
  | help
  | version
deriving DecidableEq

/-- What the name of an option stands for. -/
inductive Meaning where
  | slot (s : Slot)
  | flag (f : Flag)
deriving DecidableEq

def longOption? (side : Side) (name : Bytes) : Option Meaning :=
  if name = "log-level" then some (.slot .logLevel)
  else if name = "verbose" then some (.flag .verbose)
  else if name = "quiet" then some (.flag .quiet)
  else if name = "help" then some (.flag .help)
  else
    match side with
    | .before => if name = "version" then some (.flag .version) else none
    | .after =>
      if name = "format" then some (.slot .format)
      else if name = "no-evaluate" then some (.flag .noEvaluate)
      else if name = "dotnet" then some (.slot .engine)
      else if name = "output" then some (.slot .output)
      else none

def shortOption? (side : Side) (c : UInt8) : Option Meaning :=
  if c = 'v'.toUInt8 then some (.flag .verbose)
  else if c = 'q'.toUInt8 then some (.flag .quiet)
  else if c = 'h'.toUInt8 then some (.flag .help)
  else
    match side with
    | .before => if c = 'V'.toUInt8 then some (.flag .version) else none
    | .after =>
      if c = 'f'.toUInt8 then some (.slot .format)
      else if c = 'o'.toUInt8 then some (.slot .output)
      else none

def isCommand (t : Bytes) : Bool := t = "read" || t = "help"

def format? (t : Bytes) : Option Format :=
  if t = "json" then some .json
  else if t = "yaml" then some .yaml
  else if t = "human" then some .human
  else none

/-- What one side of the command name gives. -/
structure Given where
  project? : Option Path
  format? : Option Format
  engine? : Option Path
  output? : Option Path
  logLevel? : Option Text
  noEvaluate : Bool
  verbose : Bool
  quiet : Bool
deriving DecidableEq

namespace Given

def nothing : Given := ⟨none, none, none, none, none, false, false, false⟩

def has (g : Given) : Slot → Bool
  | .project => g.project?.isSome
  | .format => g.format?.isSome
  | .engine => g.engine?.isSome
  | .output => g.output?.isSome
  | .logLevel => g.logLevel?.isSome

/-- A path, which may not be empty. -/
def path (t : Bytes) : Except UsageError Path := if t.isEmpty then .error .badValue else .ok ⟨t⟩

/-- Fills a slot that is still free. -/
def fill (g : Given) (s : Slot) (value : Bytes) : Except UsageError Given :=
  if g.has s then .error .conflict
  else
    match s with
    | .project => (path value).map fun p => { g with project? := some p }
    | .format =>
      match CommandLine.format? value with
      | some f => .ok { g with format? := some f }
      | none => .error .badValue
    | .engine => (path value).map fun p => { g with engine? := some p }
    | .output => (path value).map fun p => { g with output? := some p }
    | .logLevel =>
      match Text.decode? value with
      | some t => .ok { g with logLevel? := some t }
      | none => .error .badValue

/-- Sets a flag that is not set yet; help and version end everything. -/
def set (g : Given) : Flag → Except UsageError Given
  | .noEvaluate => if g.noEvaluate then .error .conflict else .ok { g with noEvaluate := true }
  | .verbose => if g.verbose then .error .conflict else .ok { g with verbose := true }
  | .quiet => if g.quiet then .error .conflict else .ok { g with quiet := true }
  | .help => .error .help
  | .version => .error .version

/-- Refuses to be verbose and quiet at once. -/
def checkConflict (g : Given) : Except UsageError Unit :=
  if g.verbose && g.quiet then .error .conflict else .ok ()

end Given

/-- One side as far as it has been read: what is given, and a slot whose value has not been looked
at or has not come yet. -/
structure State where
  given : Given
  waiting : Option (Slot × Option Bytes)

namespace State

def start : State := ⟨.nothing, none⟩

def wantsValue (st : State) : Bool :=
  match st.waiting with
  | some (_, none) => true
  | _ => false

def hasProject (st : State) : Bool :=
  st.given.has .project ||
    match st.waiting with
    | some (.project, _) => true
    | _ => false

/-- What is given once the waiting value has been looked at. -/
def settle (st : State) : Except UsageError Given :=
  match st.waiting with
  | none => .ok st.given
  | some (_, none) => .error .badValue
  | some (s, some value) => st.given.fill s value

/-- An option with the value attached to it, if there is one. -/
def option (st : State) (o : Meaning) (value? : Option Bytes) : Except UsageError State :=
  match o, value? with
  | .flag f, none => do
    let g ← st.settle
    let g ← g.set f
    .ok ⟨g, none⟩
  | .flag _, some _ => .error .unwantedValue
  | .slot s, none => do
    let g ← st.settle
    .ok ⟨g, some (s, none)⟩
  | .slot s, some value => do
    let g ← st.settle
    let g ← g.fill s value
    .ok ⟨g, none⟩

/-- An option with a long name, after its dashes. -/
def long (st : State) (side : Side) (body : Bytes) : Except UsageError State :=
  match longOption? side (body.takeWhile (· != equals)) with
  | none => .error .unknownArgument
  | some o =>
    match body.dropWhile (· != equals) with
    | [] => st.option o none
    | _ :: value => st.option o (some value)

/-- Options with one-letter names, after their dash; what follows the letter of one that takes a
value is that value, and may start with `=`. -/
def short (side : Side) : State → Bytes → Except UsageError State
  | st, [] => .ok st
  | st, c :: rest =>
    match shortOption? side c with
    | none => .error .unknownArgument
    | some (.flag f) => do
      let st ← st.option (.flag f) none
      short side st rest
    | some (.slot s) =>
      match rest with
      | [] => st.option (.slot s) none
      | 0x3D :: value => st.option (.slot s) (some value)
      | value => st.option (.slot s) (some value)

/-- An argument that is no option. Before the command name it is no command either, unless the name
of one comes too late because `--` has ended the options. -/
def operand (st : State) (side : Side) (optionsOver : Bool) (t : Bytes) : Except UsageError State :=
  match side with
  | .before => .error (if optionsOver && isCommand t then .unknownArgument else .unknownCommand)
  | .after =>
    if st.hasProject then .error .unknownArgument
    else do
      let g ← st.settle
      .ok ⟨g, some (.project, some t)⟩

/-- Any argument but a command name and the end of the options. -/
def take (st : State) (side : Side) (optionsOver : Bool) (t : Bytes) : Except UsageError State :=
  if optionsOver then st.operand side optionsOver t
  else
    match t with
    | 0x2D :: 0x2D :: body => st.long side body
    | 0x2D :: c :: rest => short side st (c :: rest)
    | t =>
      match st.waiting with
      | some (s, none) => .ok ⟨st.given, some (s, some t)⟩
      | _ => st.operand side optionsOver t

end State

/-- The arguments after `read`. The flag tells whether `--` has ended the options. -/
def parseAfter : Bool → State → List Bytes → Except UsageError (Path × Given)
  | _, st, [] => do
    let g ← st.settle
    g.checkConflict
    match g.project? with
    | some project => .ok (project, g)
    | none => .error .missingPath
  | optionsOver, st, t :: rest =>
    if !optionsOver && t = "--" then parseAfter true st rest
    else do
      let st ← st.take .after optionsOver t
      parseAfter optionsOver st rest

/-- The help on one of the commands, or on all of them. -/
def helpOn : List Bytes → UsageError
  | [] => .help
  | [name] => if isCommand name then .help else .unknownCommand
  | _ => .unknownCommand

/-- Both sides together: a level given after the command name wins. -/
def combine (before after : Given) (project : Path) : Arguments where
  read := ⟨project, after.format?.getD .human, after.noEvaluate, after.engine?, after.output?⟩
  logLevel? := after.logLevel?.or before.logLevel?
  verbose := before.verbose || after.verbose
  quiet := before.quiet || after.quiet

/-- The arguments from a place before the command name on. -/
def parseBefore : Bool → State → List Bytes → Except UsageError Arguments
  | _, st, [] => do
    let g ← st.settle
    .error (if g = .nothing then .nothingGiven else .missingCommand)
  | optionsOver, st, t :: rest =>
    if !optionsOver && !st.wantsValue && t = "help" then .error (helpOn rest)
    else if !optionsOver && !st.wantsValue && t = "read" then do
      let (project, after) ← parseAfter false .start rest
      let before ← st.settle
      before.checkConflict
      .ok (combine before after project)
    else if !optionsOver && t = "--" then parseBefore true st rest
    else do
      let st ← st.take .before optionsOver t
      parseBefore optionsOver st rest

/-- What a command line asks for. -/
def parse (arguments : List Bytes) : Except UsageError Arguments :=
  parseBefore false .start arguments

end ProjectFile.CommandLine
