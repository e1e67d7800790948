import ProjectFile.Json.Writer
import ProjectFile.Project.Basic
import ProjectFile.Yaml.Scalar

/-!
A descriptor as a text: as JSON, as YAML, or as a listing for people. All three give the same
fields in the same order. JSON and YAML give the paths as they are, so there is no such text if one
of them is not UTF-8; the listing shows what can be shown of them.
-/

namespace ProjectFile

inductive Format where
  | json
  | yaml
  | human
deriving DecidableEq

/-- In which format a path that is not UTF-8 has no text. -/
inductive RenderError where
  | notJson
  | notYaml
deriving DecidableEq

def RenderError.message : RenderError → Text
  | .notJson =>
    "Failed to serialize project metadata to JSON: path contains invalid UTF-8 characters"
  | .notYaml =>
    "Failed to serialize project metadata to YAML: path contains invalid UTF-8 characters"

namespace Report

/-- The texts of a descriptor's paths. -/
structure PathTexts where
  path : Text
  directory : Text
  sources : List Text

def pathTexts? (d : Descriptor) : Option PathTexts := do
  some ⟨← d.path.text?, ← d.directory.text?, ← d.sources.mapM Path.text?⟩

def jsonTexts (ts : List Text) : Json := .array (ts.map Json.text)

def jsonPackage (p : Package) : Json :=
  .ofMembers [("name", .text p.name), ("version", .text p.version)]

def jsonStrategy : Strategy → Json
  | .evaluation => .text "evaluation"
  | .markup style => .ofMembers [("markup", .text style.text)]

def json (d : Descriptor) (texts : PathTexts) : Json :=
  .ofMembers
    [("path", .text texts.path), ("directory", .text texts.directory),
      ("strategy", jsonStrategy d.strategy), ("references", jsonTexts d.references),
      ("packages", .array (d.packages.map jsonPackage)),
      ("sources", jsonTexts texts.sources),
      ("target_frameworks", jsonTexts d.targetFrameworks)]

def yamlField (name value : Text) : Text := name ++ ": " ++ Yaml.scalarLine "  " value

def yamlStrategy : Strategy → Text
  | .evaluation => "strategy: evaluation\n"
  | .markup style => "strategy: !markup " ++ style.text ++ "\n"

/-- A named list in YAML, given its items with their line ends. -/
def yamlList (name : Text) (items : List Text) : Text :=
  if items.isEmpty then name ++ ": []\n"
  else name ++ ":\n" ++ items.flatMap fun item => '-' :: ' ' :: item

def yamlPackage (p : Package) : Text :=
  "name: " ++ Yaml.scalarLine "    " p.name ++ "  version: " ++ Yaml.scalarLine "    " p.version

def yaml (d : Descriptor) (texts : PathTexts) : Text :=
  yamlField "path" texts.path ++ yamlField "directory" texts.directory ++
    yamlStrategy d.strategy ++ yamlList "references" (d.references.map (Yaml.scalarLine "  ")) ++
    yamlList "packages" (d.packages.map yamlPackage) ++
    yamlList "sources" (texts.sources.map (Yaml.scalarLine "  ")) ++
    yamlList "target_frameworks" (d.targetFrameworks.map (Yaml.scalarLine "  "))

/-- The lines of a section: an empty one, the title with the number of items, and the items. -/
def listing (title : Text) (items : List Text) : Text :=
  "\n" ++ title ++ " (" ++ Text.ofNat items.length ++ "):\n" ++
    items.flatMap fun item => ' ' :: ' ' :: item ++ ['\n']

def human (d : Descriptor) : Text :=
  "Project:   " ++ d.path.display ++ "\n" ++
    "Strategy:  " ++ d.strategy.text ++ "\n" ++
    "Targets:   " ++
    (if d.targetFrameworks.isEmpty then ("(none)" : Text) else Text.join ", " d.targetFrameworks) ++
    "\n" ++ listing "References" d.references ++
    listing "Packages" (d.packages.map Package.text) ++
    listing "Sources" (d.sources.map Path.display)

def render : Format → Descriptor → Except RenderError Text
  | .json, d =>
    match pathTexts? d with
    | some texts => .ok (json d texts).write
    | none => .error .notJson
  | .yaml, d =>
    match pathTexts? d with
    | some texts => .ok (yaml d texts)
    | none => .error .notYaml
  | .human, d => .ok (human d)

end Report

end ProjectFile
