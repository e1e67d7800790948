import ProjectFile.Project.Markup

/-!
The packages that a project refers to. A package item names a package and a version, the version as
an attribute or as an element in it; an item that only updates or removes a package names none. The
first item with a part missing makes the project unreadable.
-/

namespace ProjectFile.Packages

/-- Whether the item names a package, rather than only updating or removing one. -/
def isActive (item : Xml.Element) : Bool :=
  item.tag.hasAttribute "Include" ||
    !(item.tag.hasAttribute "Update" || item.tag.hasAttribute "Remove")

/-- The version that an item asks for: the attribute, or else the first element of that name. -/
def version? (item : Xml.Element) : Option Text :=
  (Markup.value? item "Version").or
    ((item.childElements.find? (Style.sdk.matchesName "Version")).bind
      fun e => Text.nonBlank? e.content)

/-- The package that an item names, or the attribute that it lacks. -/
def ofItem (item : Xml.Element) : Except Text Package :=
  match Markup.value? item "Include", version? item with
  | none, _ => .error "Include"
  | some _, none => .error "Version"
  | some name, some version => .ok ⟨name, version⟩

def missing (path : Path) (item : Xml.Element) (name : Text) : ProjectError :=
  .missingAttribute path item.tag.name name item.tag.start

def ofItems (path : Path) : List Xml.Element → Except ProjectError (List Package)
  | [] => .ok []
  | item :: rest =>
    if isActive item then
      match ofItem item with
      | .ok package => (ofItems path rest).map (package :: ·)
      | .error name => .error (missing path item name)
    else ofItems path rest

/-- Packages can only be unreadable for want of an attribute. -/
theorem ofItems_eq_error {path : Path} {items : List Xml.Element} {e : ProjectError}
    (h : ofItems path items = .error e) :
    ∃ element name place, e = .missingAttribute path element name place := by
  induction items with
  | nil => cases h
  | cons item items ih =>
    rw [ofItems] at h
    split at h
    · split at h
      · cases hrest : ofItems path items with
        | error e' =>
          rw [hrest] at h
          cases h
          exact ih hrest
        | ok packages =>
          rw [hrest] at h
          cases h
      · next name _ => exact ⟨_, name, _, (Except.error.inj h).symm⟩
    · exact ih h

/-- The packages of the project at `path`, matched by local name in either dialect. -/
def extract (path : Path) (document : Xml.Document) : Except ProjectError (List Package) :=
  ofItems path (Style.sdk.items "PackageReference" document.root)

def read (storage : Storage) (path : Path) : Except ProjectError (List Package) := do
  let text ← Markup.load storage path
  let document ← Markup.parse path text
  extract path document

end ProjectFile.Packages
