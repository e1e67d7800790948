import ProjectFile.Text.Basic

/-!
JSON values. Objects keep their members in order, repeated names included. A string is known only
if every escape in it stands for a character: half a surrogate pair makes it `none`.
-/

namespace ProjectFile

inductive Json where
  | null
  | bool (b : Bool)
  | number (digits : Text)
  | string (value? : Option Text)
  | array (elements : List Json)
  | object (members : List (Option Text × Json))

namespace Json

def text (t : Text) : Json := .string (some t)

def ofMembers (members : List (Text × Json)) : Json :=
  .object (members.map fun (name, value) => (some name, value))

/-- The values of all members with a name, in order. -/
def members (name : Text) (ms : List (Option Text × Json)) : List Json :=
  ms.filterMap fun m => if m.1 = some name then some m.2 else none

end Json

end ProjectFile
