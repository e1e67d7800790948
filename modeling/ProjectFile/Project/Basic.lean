import ProjectFile.Storage.Basic
import ProjectFile.Xml.Document

/-!
What is read from a project file: its dialect, the packages it refers to, and the lists of
references, sources and target frameworks, together with the ways in which reading can fail.
-/

namespace ProjectFile

/-- The dialect of a project file. An SDK project finds its sources by itself; a legacy one lists
them, in the namespace of its time. -/
inductive Style where
  | sdk
  | legacy
deriving DecidableEq

def Style.text : Style → Text
  | .sdk => "sdk"
  | .legacy => "legacy"

structure Package where
  name : Text
  version : Text
deriving DecidableEq

def Package.text (p : Package) : Text := p.name ++ "@" ++ p.version

/-- What the text of a project file tells without being evaluated. -/
inductive Markup where
  | legacy (references : List Text) (sources : List Path)
  | sdk (sdk : Text) (sources : List Path) (targetFrameworks : List Text)
deriving DecidableEq

namespace Markup

def style : Markup → Style
  | .legacy _ _ => .legacy
  | .sdk _ _ _ => .sdk

/-- The references; SDK projects have packages instead. -/
def references : Markup → List Text
  | .legacy references _ => references
  | .sdk _ _ _ => []

def sources : Markup → List Path
  | .legacy _ sources => sources
  | .sdk _ sources _ => sources

/-- The target frameworks; those of legacy projects are not modelled. -/
def targetFrameworks : Markup → List Text
  | .legacy _ _ => []
  | .sdk _ _ targetFrameworks => targetFrameworks

end Markup

/-- What the evaluation of a project tells. -/
structure Evaluated where
  references : List Text
  sources : List Path
  targetFrameworks : List Text
deriving DecidableEq

/-- Where the lists of a descriptor come from. -/
inductive Strategy where
  | evaluation
  | markup (style : Style)
deriving DecidableEq

def Strategy.text : Strategy → Text
  | .evaluation => "evaluation"
  | .markup style => "markup (" ++ style.text ++ ")"

/-- All that is known about a project. -/
structure Descriptor where
  path : Path
  directory : Path
  strategy : Strategy
  references : List Text
  packages : List Package
  sources : List Path
  targetFrameworks : List Text
deriving DecidableEq

/-- The projects referred to; they are not resolved, so there are none. -/
def Descriptor.projectReferences (_ : Descriptor) : List Path := []

inductive ProjectError where
  | unreadable (path : Path) (reason : FileError)
  | notXml (path : Path) (reason : Xml.Error)
  | missingAttribute (path : Path) (element name : Text) (place : Xml.Position)
  | noDirectory (path : Path)
  | unscannable (path : Path) (reason : FileError)
deriving DecidableEq

namespace ProjectError

def path : ProjectError → Path
  | .unreadable path _ => path
  | .notXml path _ => path
  | .missingAttribute path _ _ _ => path
  | .noDirectory path => path
  | .unscannable path _ => path

def message : ProjectError → Text
  | .unreadable path reason =>
    "Failed to read project file " ++ path.display ++ ": " ++ reason.message
  | .notXml path reason =>
    "Failed to parse project file " ++ path.display ++ " as XML: " ++ reason.message
  | .missingAttribute path element name place =>
    "<" ++ element ++ "> at " ++ path.display ++ ":" ++ place.text ++ " is missing required '" ++
      name ++ "'"
  | .noDirectory path => "Project file path has no parent directory: " ++ path.display
  | .unscannable path reason =>
    "Failed to scan " ++ path.display ++ " for source files: " ++ reason.message

/-- What went wrong, followed by the reasons for it down to the last. -/
def explain (e : ProjectError) : Text :=
  match e with
  | .unreadable _ reason => e.message ++ ": " ++ reason.explain
  | .notXml _ reason => e.message ++ ": " ++ reason.message
  | .missingAttribute _ _ _ _ => e.message
  | .noDirectory _ => e.message
  | .unscannable _ reason => e.message ++ ": " ++ reason.explain

end ProjectError

end ProjectFile
