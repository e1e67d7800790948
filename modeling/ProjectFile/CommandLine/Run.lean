import ProjectFile.CommandLine.Arguments
import ProjectFile.Evaluation.Engine
import ProjectFile.Log.Settings
import ProjectFile.Project.Reader

/-!
What the program does for a command line. Everything that can fail before something is written
comes first: the settings are checked, the project is read and rendered. Only then is the text
delivered, to the output file if one is named and to standard output otherwise.
-/

namespace ProjectFile.CommandLine

/-- What the program finds around it. -/
structure Host where
  environment : Environment
  disk : Disk
  launch : Launcher

inductive RunError where
  | badSettings (reason : SettingsError)
  | project (reason : ProjectError)
  | unrendered (reason : RenderError)
  | unwritable (path : Path) (reason : SystemError)

def RunError.explain : RunError → Text
  | .badSettings reason => "Invalid configuration: " ++ reason.message
  | .project reason => reason.explain
  | .unrendered reason => reason.message
  | .unwritable path reason =>
    "Failed to write output to " ++ path.display ++ ": " ++ reason.message

/-- What the program leaves behind. -/
structure Outcome where
  exit : Nat
  output : Text
  errors : List Text
  events : List Event
  disk : Disk

namespace ReadCommand

/-- The settings of the environment with what the command says otherwise. -/
def settings (c : ReadCommand) (env : Environment) : Settings :=
  let s := Settings.ofEnvironment env
  { s with
    evaluate := s.evaluate && !c.noEvaluate
    engine := c.engine?.getD s.engine }

def reader (c : ReadCommand) (host : Host) : Reader :=
  let s := c.settings host.environment
  ⟨host.disk.storage, .ofSettings host.launch s, s, host.disk.current⟩

def failAs {ε δ α : Type} (f : ε → δ) (x : Attempt ε α) : Attempt δ α := do
  match ← Attempt.outcome x with
  | .ok a => pure a
  | .error e => throw (f e)

def rendered (c : ReadCommand) (host : Host) : Attempt RunError Text := do
  let s := c.settings host.environment
  Attempt.ofExcept (s.validate.mapError RunError.badSettings)
  Attempt.record ⟨.debug, s.text, []⟩
  let descriptor ← failAs RunError.project ((c.reader host).read c.project)
  Attempt.ofExcept ((Report.render c.format descriptor).mapError RunError.unrendered)

/-- Puts the text where the command wants it: what is printed, and the disk after that. -/
def deliver (c : ReadCommand) (disk : Disk) (t : Text) : Except RunError (Text × Disk) :=
  match c.output? with
  | none => .ok (t, disk)
  | some path =>
    match disk.write path t.encode with
    | .ok disk => .ok ([], disk)
    | .error reason => .error (.unwritable path reason)

def run (c : ReadCommand) (host : Host) : Outcome :=
  let text := c.rendered host
  match text.result.bind (c.deliver host.disk) with
  | .ok (printed, disk) => ⟨0, printed, [], text.events, disk⟩
  | .error e => ⟨1, [], ["Error: " ++ e.explain], text.events, host.disk⟩

end ReadCommand

def version : Text := "0.1.0"

namespace Arguments

/-- Which events are shown, with complaints about levels nobody knows. What the command line says
counts more than the environment, and a named level more than a flag. -/
def logSettings (a : Arguments) (env : Environment) : LogSettings × List Text :=
  let (s, complaints) := LogSettings.ofEnvironment env
  match a.logLevel? with
  | some t =>
    let (level, more) := LogSettings.parseLevel t
    ({ s with level := level }, complaints ++ more)
  | none =>
    if a.verbose then ({ s with level := .debug }, complaints)
    else if a.quiet then ({ s with level := .error }, complaints)
    else (s, complaints)

def opening : List Event :=
  [⟨.debug, "projmeta v" ++ version ++ " starting", []⟩, ⟨.debug, "Arguments", []⟩]

/-- The whole run: only shown events are left, and complaints come before other errors. -/
def run (a : Arguments) (host : Host) : Outcome :=
  let (s, complaints) := a.logSettings host.environment
  let o := a.read.run host
  { o with errors := complaints ++ o.errors, events := (opening ++ o.events).filter s.shows }

end Arguments

def usage : Text :=
  "Usage: projmeta [OPTIONS] read [OPTIONS] PATH\n\n" ++
    "Reads a project file and prints its sources, references, packages and " ++
    "target frameworks.\n\n" ++
    "  -f, --format FORMAT    json, yaml or human (default)\n" ++
    "      --no-evaluate      Read the text alone, without an evaluation engine\n" ++
    "      --dotnet PATH      Path of the evaluation engine\n" ++
    "  -o, --output FILE      Write to a file instead of standard output\n" ++
    "      --log-level LEVEL  Set the least level of shown events\n" ++
    "  -v, --verbose          Show what is done\n" ++
    "  -q, --quiet            Show errors only\n" ++
    "  -h, --help             Show this text\n" ++
    "  -V, --version          Show the version\n"

/-- What the program does when the command line names nothing to read: help and the version are
printed, anything else is told as a mistake. -/
def UsageError.outcome (e : UsageError) (disk : Disk) : Outcome :=
  match e with
  | .help => ⟨0, usage, [], [], disk⟩
  | .version => ⟨0, "projmeta " ++ CommandLine.version ++ "\n", [], [], disk⟩
  | e => ⟨2, [], ["error: " ++ e.message, usage], [], disk⟩

def run (arguments : List Bytes) (host : Host) : Outcome :=
  match parse arguments with
  | .ok a => a.run host
  | .error e => e.outcome host.disk

end ProjectFile.CommandLine
