import ProjectFile.Path.Basic

/-!
The lexical normal form of a path, and paths relative to a directory. Cleaning drops every `.`,
lets `..` take back the name before it and keeps the root where it is; it never looks at what is
stored under a path.
-/

namespace ProjectFile.Path

/-- One component added to a cleaned path, whose components stand in reverse. -/
def collapse (above : List Component) : Component → List Component
  | .current => above
  | .parent =>
    match above with
    | .name _ :: rest => rest
    | .root :: _ => above
    | _ => .parent :: above
  | c => c :: above

/-- The components that are left when `.` and `..` are worked off. -/
def normalize (cs : List Component) : List Component := (cs.foldl collapse []).reverse

/-- The path with `.` and `..` collapsed; `..` above the root stays at the root. -/
def clean (p : Path) : Path := ofComponents (normalize p.components)

/-- The cleaned path seen from the directory `base`. -/
def absolute (p base : Path) : Path := clean (base.join p)

def slashes (t : Text) : Text := t.replace '\\' '/'

/-- The path that an item's `Include` names in a project directory: white space around it does not
count and either slash separates. -/
def resolveInclude (directory : Path) (value : Text) : Path :=
  clean (directory.join (.ofText (slashes value.trim)))

end ProjectFile.Path
