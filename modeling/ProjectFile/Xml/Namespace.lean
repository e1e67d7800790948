import ProjectFile.Xml.Reference

/-!
Namespaces. A scope lists the prefixes that are declared, innermost first, the default namespace
under the empty prefix. A start tag collects its declarations and attributes as they are read and
looks prefixes up once it is complete.
-/

namespace ProjectFile.Xml

/-- Declared prefixes with their URIs; the first entry for a prefix counts. -/
abbrev Scope := List (Text × Text)

/-- The URI that the prefix `xml` always stands for. -/
def xmlUri : Text := "http://www.w3.org/XML/1998/namespace"

/-- The URI that no prefix may stand for. -/
def xmlnsUri : Text := "http://www.w3.org/2000/xmlns/"

/-- The URI of a prefix, `none` for the empty prefix without a default namespace. -/
def Scope.resolve (scope : Scope) (label : Text) (place : Position) :
    Except Error (Option Text) :=
  match scope.find? fun entry => entry.1 == label with
  | some (_, uri) => .ok (some uri)
  | none => if label.isEmpty then .ok none else .error (.unknownPrefix label place)

/-- An attribute with its value, its prefix not yet looked up. -/
structure PendingAttribute where
  name : QName
  value : Text
  place : Position

/-- A start tag as far as it has been read. -/
structure StartTag where
  name : QName
  start : Position
  declared : Scope
  attributes : List PendingAttribute

namespace StartTag

/-- A start tag of which only the name is known; no element may have the prefix `xmlns`. -/
def opened (name : QName) (start : Position) : Except Error StartTag :=
  if name.label = "xmlns" then .error (.xmlnsPrefixUsed (start.next '<'))
  else .ok ⟨name, start, [], []⟩

def declarePrefix (tag : StartTag) (label uri : Text) (place : Position) :
    Except Error StartTag :=
  if uri = xmlnsUri then .error (.xmlnsUriBound place)
  else if label = "xml" && uri != xmlUri then .error (.xmlPrefixBoundElsewhere place)
  else if label != "xml" && uri = xmlUri then .error (.xmlUriBoundElsewhere place)
  else if tag.declared.any fun entry => entry.1 == label then
    .error (.repeatedPrefix label place)
  else if uri = xmlUri then .ok tag
  else .ok { tag with declared := tag.declared ++ [(label, uri)] }

/-- Records the declaration of the default namespace; of several the first counts. -/
def declareDefault (tag : StartTag) (uri : Text) (place : Position) : Except Error StartTag :=
  if uri = xmlUri then .error (.xmlUriBoundElsewhere place)
  else if uri = xmlnsUri then .error (.xmlnsUriBound place)
  else .ok { tag with declared := tag.declared ++ [([], uri)] }

/-- Records an attribute as written, which may be a declaration. -/
def add (tag : StartTag) (raw : RawAttribute) : Except Error StartTag := do
  let value := attributeValue (← pieces raw.valuePlace raw.value)
  if raw.name.label = "xmlns" then tag.declarePrefix raw.name.name value raw.place
  else if raw.name.name = "xmlns" then tag.declareDefault value raw.place
  else .ok { tag with attributes := tag.attributes ++ [⟨raw.name, value, raw.place⟩] }

def scope (tag : StartTag) (outer : Scope) : Scope := tag.declared ++ outer

/-- Looks up the prefix of an attribute; without one it has no namespace. -/
def resolveAttribute (scope : Scope) (a : PendingAttribute) : Except Error Attribute :=
  if a.name.label = "xml" then .ok ⟨some xmlUri, a.name.name, a.value⟩
  else if a.name.label.isEmpty then .ok ⟨none, a.name.name, a.value⟩
  else do
    let space? ← scope.resolve a.name.label a.place
    .ok ⟨space?, a.name.name, a.value⟩

/-- Looks up the prefixes of the attributes in turn, no two of which may have one name and
namespace; `done` holds those that are finished. -/
def resolveAttributes (scope : Scope) :
    List Attribute → List PendingAttribute → Except Error (List Attribute)
  | done, [] => .ok done
  | done, a :: rest => do
    let resolved ← resolveAttribute scope a
    if done.any fun b => b.name == resolved.name && b.space? == resolved.space? then
      .error (.repeatedAttribute a.name.name a.place)
    else resolveAttributes scope (done ++ [resolved]) rest

/-- The tag of the element, its own prefix looked up last. -/
def finish (tag : StartTag) (outer : Scope) : Except Error Tag := do
  let scope := tag.scope outer
  let attributes ← resolveAttributes scope [] tag.attributes
  let space? ← scope.resolve tag.name.label (tag.start.next '<')
  .ok ⟨tag.name.name, space?, attributes, tag.start⟩

end StartTag

end ProjectFile.Xml
