import ProjectFile.CommandLine.Run
import ProjectFile.Log.Line

/-!
The program. It looks at the part of the file system that a command line is about, hands it to
`CommandLine.run`, and puts what comes back where it belongs. It starts no other programs: an engine
that is not there is told as missing, and any other one as refused.
-/

namespace ProjectFile.Program

def native (t : Text) : String := String.ofList t

def attempt {α : Type} (action : IO α) : IO (Option α) := do
  match ← action.toBaseIO with
  | .ok a => return some a
  | .error _ => return none

def kindOf (p : Path) : IO (Option IO.FS.FileType) := do
  let place := (← IO.currentDir) / native p.display
  return (← attempt place.metadata).map fun found => found.type

/-- The disk with what stands at a path and on the way there; files are left empty. -/
def addPath (d : Disk) (p : Path) : IO Disk := do
  let mut d := d
  for step in (d.base.join p).prefixes do
    match ← kindOf step with
    | some .dir => d := d.makeDirectories step
    | some _ => d := d.addFile step []
    | none => pure ()
  return d

/-- The disk with what a file holds, or with a file that cannot be read. -/
def addContent (d : Disk) (p : Path) : IO Disk := do
  match ← kindOf p, ← attempt (IO.FS.readBinFile (native p.display)) with
  | some .file, some bytes => return d.addFile p bytes.toList
  | some .file, none => return (d.remove p).make p (.file { Rights.all with read := false } [])
  | _, _ => return d

/-- The disk with all that is below a directory; files are left empty, and links are kept with
what they lead to. What cannot be listed or entered is empty. -/
partial def addBelow (d : Disk) (p : Path) : IO Disk := do
  let place := (← IO.currentDir) / native p.display
  let entered := (← attempt (place / ".").metadata).isSome
  let some found ← attempt place.readDir
    | return (d.remove p).make p (.directory { Rights.all with read := false, enter := entered } [])
  let mut d := if entered then d
    else (d.remove p).make p (.directory { Rights.all with enter := false } [])
  for entry in found do
    let below := p.child entry.fileName
    let kind? : Option IO.FS.FileType :=
      (← attempt entry.path.symlinkMetadata).map fun found => found.type
    match kind? with
    | some .dir => d ← addBelow (d.makeDirectories below) below
    | some .file => d := d.addFile below []
    | some .symlink =>
      match ← attempt (IO.FS.realPath entry.path) with
      | some target =>
        let target : Path := ⟨target.toString⟩
        d ← addPath (d.addLink below target) target
      | none => d := d.addLink below below
    | some .other => d := d.make below .special
    | none => pure ()
  return d

def variableNames : List String :=
  ["PROJMETA_EVALUATE", "PROJMETA_DOTNET", "PROJMETA_SOURCE_EXTENSION", "PROJMETA_SCAN_EXCLUDE",
    "PROJMETA_LOG_LEVEL", "PROJMETA_LOG_JSON"]

def environment : IO Environment := do
  let mut env : Environment := []
  for name in variableNames do
    if let some value ← IO.getEnv name then env := env ++ [(name.toList, value.toList)]
  return env

/-- What the program finds around it that the command is about. -/
def observe (command? : Option CommandLine.ReadCommand) : IO CommandLine.Host := do
  let env ← environment
  let base : Path := ⟨(← IO.currentDir).toString⟩
  let mut d : Disk := ⟨.emptyDirectory, base⟩
  if let some command := command? then
    let project := command.project.absolute base
    d ← addContent (← addPath d project) project
    if let some directory := project.parent? then d ← addBelow d directory
    d ← addContent d project
    if let some output := command.output? then d ← addPath d output
    d ← addPath d (command.settings env).engine
  let seen := d
  return ⟨env, seen, seen.launcher fun _ => none⟩

def writeOutput (command : CommandLine.ReadCommand) (o : CommandLine.Outcome) : IO Unit := do
  if o.exit == 0 then
    if let some path := command.output? then
      if let .ok bytes := o.disk.bytes path then
        IO.FS.writeBinFile (native path.display) ⟨bytes.toArray⟩

end ProjectFile.Program

open ProjectFile in
def main (arguments : List String) : IO UInt32 := do
  let arguments := arguments.map fun (a : String) => (a : Bytes)
  let command? := (CommandLine.parse arguments).toOption.map CommandLine.Arguments.read
  let host ← Program.observe command?
  let outcome := CommandLine.run arguments host
  let settings := (LogSettings.ofEnvironment host.environment).1
  for e in outcome.events do
    IO.eprintln (Program.native (e.line settings))
  for line in outcome.errors do
    IO.eprintln (Program.native line)
  IO.print (Program.native outcome.output)
  if let some command := command? then Program.writeOutput command outcome
  return UInt32.ofNat outcome.exit
