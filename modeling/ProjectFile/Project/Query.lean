import ProjectFile.Project.Basic

/-!
Finding items and properties in a project. Both dialects use the same element names; the legacy
one also asks for its namespace, while an SDK project is matched by local names alone.
-/

namespace ProjectFile

def legacyNamespace : Text := "http://schemas.microsoft.com/developer/msbuild/2003"

namespace Style

/-- Whether the element has the name, and in the legacy dialect also the namespace. -/
def matchesName (s : Style) (name : Text) (e : Xml.Element) : Bool :=
  e.tag.name == name &&
    match s with
    | .sdk => true
    | .legacy => e.tag.space? == some legacyNamespace

theorem matchesName_of_ne {s : Style} {name : Text} {e : Xml.Element} (h : e.tag.name ≠ name) :
    s.matchesName name e = false := by
  unfold matchesName
  rw [beq_false_of_ne h, Bool.false_and]

/-- The items of a kind: the elements of that name directly in an item group, which may stand
anywhere in the project. -/
def items (s : Style) (kind : Text) (root : Xml.Element) : List Xml.Element :=
  (root.elements.filter (s.matchesName "ItemGroup")).flatMap fun group =>
    group.childElements.filter (s.matchesName kind)

/-- The elements at any depth in the property groups directly in the project. -/
def properties (s : Style) (root : Xml.Element) : List Xml.Element :=
  (root.childElements.filter (s.matchesName "PropertyGroup")).flatMap Xml.Element.descendants

end Style

end ProjectFile
