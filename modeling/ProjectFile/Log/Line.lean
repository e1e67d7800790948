import ProjectFile.Json.Writer
import ProjectFile.Log.Settings

/-!
Events as lines of a log: for people the level, the message and the fields one after another, for
programs a JSON object.
-/

namespace ProjectFile

def FieldValue.plain : FieldValue → Text
  | .text t => t
  | .number n => Text.ofNat n

def FieldValue.json : FieldValue → Json
  | .text t => .text t
  | .number n => .number (Text.ofNat n)

namespace Event

/-- The event as a JSON object; the message is the first of its fields. -/
def json (e : Event) : Json :=
  .ofMembers
    [("level", .text e.level.name),
      ("fields",
        .ofMembers (("message", .text e.message) :: e.fields.map fun f => (f.1, f.2.json)))]

def plain (e : Event) : Text :=
  e.level.name ++ ' ' :: e.message ++ e.fields.flatMap fun f => ' ' :: f.1 ++ '=' :: f.2.plain

def line (s : LogSettings) (e : Event) : Text :=
  if s.asObjects then e.json.writeLine else e.plain

end Event

end ProjectFile
