import ProjectFile.Project.Query
import ProjectFile.Project.Scan

/-!
Reading a project from its text alone. Variables, conditions and imports are taken as they are
written. An SDK project declares its SDK on the root element, in an `Sdk` element or in an import;
its sources are those it lists and those that a scan of its directory finds. A legacy project lists
everything.
-/

namespace ProjectFile

namespace Markup

/-- The document that a project text is. One byte-order mark may come first. -/
def parse (path : Path) (text : Text) : Except ProjectError Xml.Document :=
  let text :=
    match text with
    | '\uFEFF' :: rest => rest
    | text => text
  match Xml.Document.parse text with
  | .ok document => .ok document
  | .error reason => .error (.notXml path reason)

theorem parse_eq_error {path : Path} {text : Text} {e : ProjectError}
    (h : parse path text = .error e) : ∃ reason, e = .notXml path reason := by
  unfold parse at h
  dsimp only at h
  split at h
  · cases h
  · next reason _ => exact ⟨reason, (Except.error.inj h).symm⟩

/-- The value of an attribute if it is not blank, trimmed. -/
def value? (e : Xml.Element) (name : Text) : Option Text :=
  (e.tag.attribute? name).bind Text.nonBlank?

/-- The SDK that an element directly in the project declares. -/
def childSdk? (e : Xml.Element) : Option Text :=
  if e.tag.name = "Sdk" then value? e "Name"
  else if e.tag.name = "Import" then value? e "Sdk"
  else none

/-- The SDK that the project declares: on its root, or else the first one directly in it. -/
def sdk? (root : Xml.Element) : Option Text :=
  (value? root "Sdk").or (root.childElements.findSome? childSdk?)

/-- The dialect of a project: it is an SDK project if it declares an SDK. -/
def styleOf (document : Xml.Document) : Style :=
  if (sdk? document.root).isSome then .sdk else .legacy

/-- The sources that `Compile` items list, seen from the project directory. -/
def listedSources (s : Style) (root : Xml.Element) (directory : Path) : List Path :=
  (s.items "Compile" root).flatMap fun item =>
    match item.tag.attribute? "Include" with
    | some value => (Text.pieces ';' value).map directory.resolveInclude
    | none => []

def referencesOf (s : Style) (root : Xml.Element) : List Text :=
  (s.items "Reference" root).filterMap fun item => value? item "Include"

def frameworksOf (root : Xml.Element) : List Text :=
  ((Style.sdk.properties root).filter fun e =>
    Style.sdk.matchesName "TargetFramework" e || Style.sdk.matchesName "TargetFrameworks" e).flatMap
    fun e => Text.pieces ';' e.content

/-- What the project at `path` tells by its text, and by a scan if it is an SDK project. -/
def extract (storage : Storage) (settings : Settings) (path : Path) (document : Xml.Document) :
    Attempt ProjectError Markup := do
  let root := document.root
  match path.parent? with
  | none => throw (.noDirectory path)
  | some directory =>
    match sdk? root with
    | some declared =>
      let listed := listedSources .sdk root directory
      let scanned ← storage.scan settings directory
      Attempt.record ⟨.debug, "Read SDK-style project markup",
        [("path", .text path.display), ("sdk", .text declared), ("explicit", .number listed.length),
          ("scanned", .number scanned.length)]⟩
      pure (.sdk declared (listed ++ scanned) (frameworksOf root))
    | none =>
      let references := referencesOf .legacy root
      let sources := listedSources .legacy root directory
      Attempt.record ⟨.debug, "Read legacy project markup",
        [("path", .text path.display), ("references", .number references.length),
          ("sources", .number sources.length)]⟩
      pure (.legacy references sources)

/-- Below a directory only a scan can fail: a legacy project tells its lists by the document alone,
and an SDK project adds to them what the scan finds. -/
theorem result_extract {storage : Storage} {settings : Settings} {path directory : Path}
    {document : Xml.Document} (hparent : path.parent? = some directory) :
    (extract storage settings path document).result =
      match sdk? document.root with
      | some declared => (storage.scan settings directory).result.map fun scanned =>
          .sdk declared (listedSources .sdk document.root directory ++ scanned)
            (frameworksOf document.root)
      | none => .ok (.legacy (referencesOf .legacy document.root)
          (listedSources .legacy document.root directory)) := by
  unfold extract
  simp only [hparent]
  split
  · rw [Attempt.result_bind]
    cases (storage.scan settings directory).result <;> rfl
  · rfl

def load (storage : Storage) (path : Path) : Except ProjectError Text :=
  match storage.read path with
  | .ok text => .ok text
  | .error reason => .error (.unreadable path reason)

def read (storage : Storage) (settings : Settings) (path : Path) :
    Attempt ProjectError Markup := do
  let text ← Attempt.ofExcept (load storage path)
  let document ← Attempt.ofExcept (parse path text)
  extract storage settings path document

end Markup

end ProjectFile
