import ProjectFile.Evaluation.Basic
import ProjectFile.Project.Packages

/-!
Reading a project: the evaluator is asked first, and if it has no answer the text tells. Packages
come from the text in either case, so a project whose text is no document is not readable at all.
-/

namespace ProjectFile

/-- What a reader works with; relative paths are seen from `base`, if the system tells it. -/
structure Reader where
  storage : Storage
  evaluator : Evaluator
  settings : Settings
  base : Except SystemError Path

namespace Reader

/-- The cleaned absolute path of a project; an absolute path is seen from anywhere. -/
def absolute (r : Reader) (path : Path) : Except ProjectError Path :=
  if path.isAbsolute then .ok path.clean
  else
    match r.base with
    | .ok base => .ok (path.absolute base)
    | .error reason => .error (.unreadable path (.noBase reason))

/-- The cleaned absolute path of a project and the directory it is in. -/
def locate (r : Reader) (path : Path) : Except ProjectError (Path × Path) := do
  let path ← r.absolute path
  match path.parent? with
  | none => .error (.noDirectory path)
  | some directory =>
    if directory.bytes.isEmpty then .error (.noDirectory path) else .ok (path, directory)

def fallback (r : Reader) (path : Path) (reason : EvaluationError) : Event :=
  if reason.isUnavailable then
    ⟨.debug, "Evaluation unavailable, reading markup",
      [("path", .text path.display), ("reason", .text reason.message)]⟩
  else
    ⟨.warn, "Evaluation failed, falling back to markup",
      [("path", .text path.display), ("evaluator", .text r.evaluator.name),
        ("error", .text reason.message)]⟩

/-- The answer of the evaluator, if it has one; the reason why not is logged. -/
def evaluated? (r : Reader) (path : Path) : Attempt ProjectError (Option Evaluated) := do
  match ← Attempt.outcome (r.evaluator.evaluate path) with
  | .ok evaluated => pure (some evaluated)
  | .error reason =>
    Attempt.record (r.fallback path reason)
    pure none

def ofEvaluated (path directory : Path) (packages : List Package) (e : Evaluated) : Descriptor :=
  ⟨path, directory, .evaluation, e.references, packages, e.sources, e.targetFrameworks⟩

def ofMarkup (path directory : Path) (packages : List Package) (m : Markup) : Descriptor :=
  ⟨path, directory, .markup m.style, m.references, packages, m.sources, m.targetFrameworks⟩

def finished (d : Descriptor) : Event :=
  ⟨.info, "Read project",
    [("path", .text d.path.display), ("strategy", .text d.strategy.text),
      ("references", .number d.references.length), ("packages", .number d.packages.length),
      ("sources", .number d.sources.length), ("frameworks", .number d.targetFrameworks.length)]⟩

def read (r : Reader) (path : Path) : Attempt ProjectError Descriptor := do
  let (path, directory) ← Attempt.ofExcept (r.locate path)
  if !r.storage.isFile path then throw (.unreadable path (.projectMissing path))
  else
    let answer ← r.evaluated? path
    let text ← Attempt.ofExcept (Markup.load r.storage path)
    let document ← Attempt.ofExcept (Markup.parse path text)
    let packages ← Attempt.ofExcept (Packages.extract path document)
    let descriptor ←
      match answer with
      | some evaluated => pure (ofEvaluated path directory packages evaluated)
      | none => do
        let markup ← Markup.extract r.storage r.settings path document
        pure (ofMarkup path directory packages markup)
    Attempt.record (finished descriptor)
    pure descriptor

def markupOnly (storage : Storage) (settings : Settings) (base : Except SystemError Path) :
    Reader :=
  ⟨storage, .disabled, settings, base⟩

end Reader

end ProjectFile
