import ProjectFile.Evaluation.Output
import ProjectFile.Storage.Disk

/-!
Evaluation by running an engine as a program of its own. The engine is asked for the compiled and
referenced items and for the target frameworks; what it prints is decoded if it ended well, and
shown in part if not.
-/

namespace ProjectFile

/-- A program to be run, with what is set for it in the environment; it gets nothing to read. -/
structure Command where
  program : Path
  arguments : List Bytes
  environment : Environment

structure Finished where
  status : ExitStatus
  output : Bytes
  errors : Bytes

/-- What starting a command gives: how the program finished, or why it was not started. A command
leaves the disk as it is; an engine is asked for what it knows and writes no file. -/
abbrev Launcher := Command → Except SystemError Finished

/-- The file that a disk holds for a program. A bare name is looked for in the directories kept for
programs, where only `.` and `..` are found, which are directories. -/
def Disk.program (d : Disk) (program : Path) : Except SystemError Bytes :=
  if Path.slash ∈ program.bytes then
    match d.resolve program with
    | .ok (_, .file _ bytes) => .ok bytes
    | .ok _ => .error .denied
    | .error reason => .error reason
  else if program.bytes = [Path.dot] || program.bytes = [Path.dot, Path.dot] then .error .denied
  else if Disk.maxName < program.bytes.length then .error .nameTooLong
  else .error .notFound

/-- The launcher that runs the programs on a disk: `run?` tells which files are programs, and what
they do. -/
def Disk.launcher (d : Disk) (run? : Bytes → Option (Command → Finished)) : Launcher :=
  fun c =>
    match d.program c.program with
    | .ok bytes =>
      match run? bytes with
      | some run => .ok (run c)
      | none => .error .denied
    | .error reason => .error reason

namespace Evaluation

/-- The most that is shown of what a failed engine printed, in bytes. -/
def maxShown : Nat := 2048

def command (engine path : Path) : Command where
  program := engine
  arguments :=
    ["msbuild", path.bytes, "-nologo", "-getItem:Compile", "-getItem:Reference",
      "-getProperty:TargetFramework", "-getProperty:TargetFrameworks"]
  environment := [("DOTNET_CLI_TELEMETRY_OPTOUT", "1"), ("DOTNET_NOLOGO", "1")]

/-- Whether a NUL stands in what would be passed to the system. -/
def hasNul (c : Command) : Bool :=
  c.program.bytes.contains 0 || c.arguments.any fun a => a.contains 0

/-- What a failed engine has to say: its errors, or what else it printed if they are blank. -/
def complaint (f : Finished) : Text :=
  let errors := (Text.decodeLossy f.errors).trim
  if errors.isEmpty then (Text.decodeLossy f.output).trim else errors

/-- The lists of the project at `path` that a finished engine gives. -/
def ofFinished (path : Path) (sourceExtension : Text) (f : Finished) :
    Except EvaluationError Evaluated :=
  if f.status.isSuccess then
    decode (Text.decodeLossy f.output) ((path.parent?).getD .empty) sourceExtension
  else .error (.failed f.status (Text.clip maxShown (complaint f)))

def run (launch : Launcher) (engine : Path) (sourceExtension : Text) (path : Path) :
    Except EvaluationError Evaluated :=
  let c := command engine path
  match if hasNul c then .error .nulInCommand else launch c with
  | .ok f => ofFinished path sourceExtension f
  | .error .notFound => .error (.engineMissing engine)
  | .error reason => .error (.notStarted reason)

/-- What an engine answers is decoded from what it printed. -/
theorem exists_decode_of_run {launch : Launcher} {engine path : Path} {sourceExtension : Text}
    {e : Evaluated} (h : run launch engine sourceExtension path = .ok e) :
    ∃ printed, decode printed (path.parent?.getD .empty) sourceExtension = .ok e := by
  unfold run at h
  dsimp only at h
  split at h
  · unfold ofFinished at h
    split at h
    · exact ⟨_, h⟩
    · cases h
  · cases h
  · cases h

def listed (ts : List Text) : Text := "[" ++ Text.join ", " ts ++ "]"

def shown (e : Evaluated) : Text :=
  "EvaluatedProject \x7b references: " ++ listed (e.references.map Text.quoted) ++ ", sources: " ++
    listed (e.sources.map Path.quoted) ++ ", target_frameworks: " ++
    listed (e.targetFrameworks.map Text.quoted) ++ " \x7d"

end Evaluation

def Evaluator.engine (launch : Launcher) (engine : Path) (sourceExtension : Text) : Evaluator where
  name := "dotnet msbuild"
  evaluate path := do
    Attempt.record ⟨.debug, "Evaluating project",
      [("path", .text path.display), ("dotnet", .text engine.display)]⟩
    let evaluated ← Attempt.ofExcept (Evaluation.run launch engine sourceExtension path)
    Attempt.record ⟨.trace, "Decoded evaluation output",
      [("project", .text (Evaluation.shown evaluated))]⟩
    pure evaluated

/-- An engine's answer is what running it gives. -/
@[simp] theorem Evaluator.result_engine (launch : Launcher) (engine : Path)
    (sourceExtension : Text) (path : Path) :
    ((Evaluator.engine launch engine sourceExtension).evaluate path).result =
      Evaluation.run launch engine sourceExtension path := by
  unfold Evaluator.engine
  simp only [Attempt.result_bind, Attempt.result_record, Attempt.result_ofExcept]
  cases Evaluation.run launch engine sourceExtension path <;> rfl

def Evaluator.ofSettings (launch : Launcher) (settings : Settings) : Evaluator :=
  if settings.evaluate then .engine launch settings.engine settings.sourceExtension
  else .disabled

end ProjectFile
