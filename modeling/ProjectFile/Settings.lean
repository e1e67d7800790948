import ProjectFile.Path.Basic
import ProjectFile.Text.Utf8

/-!
How projects are read: whether the evaluation engine is asked and where it is, which files count
as sources, and which directories a scan leaves out. Settings come from the environment, a missing
or unreadable variable leaving the default in place.
-/

namespace ProjectFile

/-- Environment variables with their values; the first entry for a name counts. -/
abbrev Environment := List (Text × Text)

def Environment.value? (env : Environment) (name : Text) : Option Text :=
  (env.find? fun entry => entry.1 == name).map Prod.snd

def Environment.truth? (env : Environment) (name : Text) : Option Bool :=
  match env.value? name with
  | some value => if value = "true" then some true else if value = "false" then some false else none
  | none => none

/-- How projects are read. -/
structure Settings where
  evaluate : Bool
  engine : Path
  sourceExtension : Text
  excludedDirectories : List Text
deriving DecidableEq

inductive SettingsError where
  | badExtension (extension : Text)
  | noEngine
deriving DecidableEq

def SettingsError.message : SettingsError → Text
  | .badExtension extension =>
    "Configuration validation failed: Source extension must look like '.cs', got '" ++ extension ++
      "'"
  | .noEngine => "Configuration validation failed: dotnet path must not be empty"

namespace Settings

def default : Settings := ⟨true, ⟨"dotnet"⟩, ".cs", []⟩

def parseNames (t : Text) : List Text := Text.pieces ',' t

def printNames (names : List Text) : Text := Text.join ", " names

def ofEnvironment (env : Environment) : Settings where
  evaluate := (env.truth? "PROJMETA_EVALUATE").getD default.evaluate
  engine :=
    match env.value? "PROJMETA_DOTNET" with
    | some value => if value.trim.isEmpty then default.engine else .ofText value
    | none => default.engine
  sourceExtension := (env.value? "PROJMETA_SOURCE_EXTENSION").getD default.sourceExtension
  excludedDirectories :=
    ((env.value? "PROJMETA_SCAN_EXCLUDE").map parseNames).getD default.excludedDirectories

/-- Checks that the extension is a dot with something after it and that an engine is named. -/
def validate (s : Settings) : Except SettingsError Unit :=
  if !s.sourceExtension.startsWith "." || s.sourceExtension.byteLength < 2 then
    .error (.badExtension s.sourceExtension)
  else if s.engine.bytes.isEmpty then .error .noEngine
  else .ok ()

def excludes (s : Settings) (name : Text) : Bool := s.excludedDirectories.contains name

/-- The excluded names as directories have them. -/
def excludedNames (s : Settings) : List Bytes := s.excludedDirectories.map Text.encode

/-- Whether a name, or what people are shown of it, ends as those of sources do. -/
def isSourceName (s : Settings) (name : Bytes) : Bool :=
  Text.endsWith (Text.decodeLossy name) s.sourceExtension

def text (s : Settings) : Text :=
  "Projmeta Configuration:\n" ++
    "  Evaluation: " ++ (if s.evaluate then "true" else "false") ++ "\n" ++
    "  dotnet: " ++ s.engine.display ++ "\n" ++
    "  Source Extension: " ++ s.sourceExtension ++ "\n" ++
    "  Scan Exclude: " ++
    (if s.excludedDirectories.isEmpty then ("(none)" : Text)
      else printNames s.excludedDirectories) ++ "\n"

end Settings

end ProjectFile
