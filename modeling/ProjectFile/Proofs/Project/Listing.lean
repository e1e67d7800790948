import ProjectFile.Project.Query
import ProjectFile.Proofs.Text.Trim
import ProjectFile.Proofs.Xml.Written

/-!
The texts of projects that list references, sources and packages in item groups, in either dialect.
Each value stands in any of its spellings, and the layout chooses the white space before the tags
and the quotation marks. Such a text is a document whose elements are the groups in order, and in
each group its items.
-/

namespace ProjectFile.Listing

open Xml (Element Node Position Scope Shows Spelled Spells Tag WrittenAttribute WrittenTag Writes)

/-- A value in a project, with a spelling of it. -/
structure Value extends Spelled where
  isTrimmed : value.IsTrimmed

/-- A value in a list with semicolons between its values. -/
structure ListValue extends Value where
  single : ';' ∉ value

/-- A project can hold every trimmed text of legal characters. -/
theorem exists_value {t : Text} (hlegal : Xml.IsLegal t) (htrimmed : t.IsTrimmed) :
    ∃ v : Value, v.value = t := by
  obtain ⟨raw, hraw⟩ := Xml.exists_spells t
  exact ⟨⟨⟨t, raw, hlegal, hraw⟩, htrimmed⟩, rfl⟩

/-- An item of a group. The version of a package is an attribute or, if it is nested, the text of an
element in the item. -/
inductive Item where
  | reference (name : Value)
  | compile (path : ListValue)
  | package (name version : Value) (nested : Bool)

/-- What a text of a project looks like besides what it says. -/
structure Layout where
  gap : Text
  mark : Char
  isSpaces : Xml.IsSpaces gap
  isQuote : Xml.IsQuote mark

namespace Item

def reference? : Item → Option Text
  | reference name => some name.value
  | _ => none

def compiled? : Item → Option Text
  | compile path => some path.value
  | _ => none

def package? : Item → Option Package
  | package name version _ => some ⟨name.value, version.value⟩
  | _ => none

/-- The version that stands in an element of its own. -/
def nested? : Item → Option Value
  | package _ version true => some version
  | _ => none

def kind : Item → Text
  | reference _ => "Reference"
  | compile _ => "Compile"
  | package _ _ _ => "PackageReference"

def attributes : Item → List Xml.Attribute
  | reference name => [⟨none, "Include", name.value⟩]
  | compile path => [⟨none, "Include", path.value⟩]
  | package name version false =>
    [⟨none, "Include", name.value⟩, ⟨none, "Version", version.value⟩]
  | package name _ true => [⟨none, "Include", name.value⟩]

theorem isLocalName_kind (item : Item) : Xml.IsLocalName item.kind := by
  cases item with
  | reference name =>
    show Xml.IsLocalName "Reference"
    decide
  | compile path =>
    show Xml.IsLocalName "Compile"
    decide
  | package name version nested =>
    show Xml.IsLocalName "PackageReference"
    decide

end Item

/-- The namespace of legacy projects, written as it is. -/
def legacyNamespaceSpelled : Spelled where
  value := legacyNamespace
  raw := legacyNamespace
  legal := by decide
  spells := .literal (by decide)

theorem spells_join {separator : Text} (hseparator : Spells separator separator)
    (values : List ListValue) :
    Spells (Text.join separator (values.map fun v => v.value))
      (Text.join separator (values.map fun v => v.raw)) := by
  induction values with
  | nil => exact .nil
  | cons first values ih =>
    cases values with
    | nil => simpa using first.spells
    | cons second values =>
      rw [List.map_cons, List.map_cons] at ih ⊢
      rw [List.map_cons, List.map_cons, Text.join_cons_cons, Text.join_cons_cons]
      exact (first.spells.append hseparator).append ih

/-- A list of values with semicolons between them. -/
def joined (values : List ListValue) : Spelled where
  value := Text.join ";" (values.map fun v => v.value)
  raw := Text.join ";" (values.map fun v => v.raw)
  legal := Text.forall_mem_join (show Xml.IsLegal ";" by decide) fun part hpart => by
    obtain ⟨v, -, rfl⟩ := List.mem_map.mp hpart
    exact v.legal
  spells := spells_join (.literal (by decide)) values

/-- A tag without attributes. -/
def plainTag (name : Text) (isLocalName : Xml.IsLocalName name) : WrittenTag :=
  ⟨name, [], [], isLocalName, by decide, by simp, by simp⟩

def groupTag : WrittenTag := plainTag "ItemGroup" (by decide)

def propertiesTag : WrittenTag := plainTag "PropertyGroup" (by decide)

def frameworksTag : WrittenTag := plainTag "TargetFrameworks" (by decide)

def versionTag : WrittenTag := plainTag "Version" (by decide)

namespace Layout

variable (l : Layout)

def quoted (name : Text) (content : Spelled) (isLocalName : Xml.IsLocalName name) :
    WrittenAttribute :=
  ⟨" ", name, l.mark, content, by decide, by decide, isLocalName, l.isQuote⟩

def itemAttributes : Item → List WrittenAttribute
  | .reference name => [l.quoted "Include" name.toSpelled (by decide)]
  | .compile path => [l.quoted "Include" path.toSpelled (by decide)]
  | .package name version false => [l.quoted "Include" name.toSpelled (by decide),
      l.quoted "Version" version.toSpelled (by decide)]
  | .package name _ true => [l.quoted "Include" name.toSpelled (by decide)]

def itemTag (item : Item) : WrittenTag where
  name := item.kind
  attributes := l.itemAttributes item
  gap := []
  isLocalName := item.isLocalName_kind
  isSpaces := by decide
  nodup := by
    cases item with
    | reference name => simp [itemAttributes]
    | compile path => simp [itemAttributes]
    | package name version nested => cases nested <;> simp [itemAttributes, quoted]
  allowed := by
    have hnone : ∀ a ∈ l.itemAttributes item, a.declares = false := by
      cases item with
      | reference name => simp [itemAttributes, quoted, WrittenAttribute.declares]
      | compile path => simp [itemAttributes, quoted, WrittenAttribute.declares]
      | package name version nested =>
        cases nested <;> simp [itemAttributes, quoted, WrittenAttribute.declares]
    intro a ha hdeclares
    rw [hnone a ha] at hdeclares
    cases hdeclares

def legacyTag : WrittenTag where
  name := "Project"
  attributes := [l.quoted "xmlns" legacyNamespaceSpelled (by decide)]
  gap := []
  isLocalName := by decide
  isSpaces := by decide
  nodup := by simp
  allowed := by
    rintro a ha -
    obtain rfl := List.mem_singleton.mp ha
    show legacyNamespace ≠ Xml.xmlUri ∧ legacyNamespace ≠ Xml.xmlnsUri
    decide

def sdkTag (sdk : Value) : WrittenTag where
  name := "Project"
  attributes := [l.quoted "Sdk" sdk.toSpelled (by decide)]
  gap := []
  isLocalName := by decide
  isSpaces := by decide
  nodup := by simp
  allowed := by simp [quoted, WrittenAttribute.declares]

/-- An element with a text in it and white space around it. -/
def textElement (tag : WrittenTag) (content : Spelled) : Text :=
  l.gap ++ tag.text true ++ content.raw ++ Xml.endTagText tag.name ++ l.gap

def itemText (item : Item) : Text :=
  match item.nested? with
  | none => l.gap ++ (l.itemTag item).text false
  | some version =>
    l.gap ++ (l.itemTag item).text true ++ l.textElement versionTag version.toSpelled ++
      Xml.endTagText item.kind

def groupText (items : List Item) : Text :=
  l.gap ++ groupTag.text true ++ (items.flatMap l.itemText ++ l.gap) ++ Xml.endTagText "ItemGroup"

def groupsText (groups : List (List Item)) : Text := groups.flatMap l.groupText ++ l.gap

def frameworksText (frameworks : List ListValue) : Text :=
  l.gap ++ propertiesTag.text true ++ l.textElement frameworksTag (joined frameworks) ++
    Xml.endTagText "PropertyGroup"

/-- The text of a legacy project. -/
def legacyText (groups : List (List Item)) : Text :=
  l.legacyTag.text true ++ l.groupsText groups ++ Xml.endTagText "Project" ++ l.gap

/-- The text of a project for an SDK and target frameworks. -/
def sdkText (sdk : Value) (frameworks : List ListValue) (groups : List (List Item)) : Text :=
  (l.sdkTag sdk).text true ++ (l.frameworksText frameworks ++ l.groupsText groups) ++
    Xml.endTagText "Project" ++ l.gap

/-! The elements in the texts -/

end Layout

/-- Whether an element has just a text in it. -/
structure IsTextElement (name content : Text) (e : Element) : Prop where
  name : e.tag.name = name
  content : e.content = content
  childElements : e.childElements = []

/-- Whether an element is an item, wherever it stands. -/
structure IsItem (space? : Option Text) (item : Item) (e : Element) : Prop where
  tag : ∃ p, e.tag = ⟨item.kind, space?, item.attributes, p⟩
  nested : match item.nested? with
    | none => e.childElements = []
    | some version =>
      ∃ child, e.childElements = [child] ∧ IsTextElement "Version" version.value child

/-- Whether an element is the group of the items, wherever it stands. -/
structure IsGroup (space? : Option Text) (items : List Item) (e : Element) : Prop where
  tag : ∃ p, e.tag = ⟨"ItemGroup", space?, [], p⟩
  items : List.Forall₂ (IsItem space?) items e.childElements

/-- Whether an element is the property group with the target frameworks, wherever it stands. -/
structure IsProperties (frameworks : List ListValue) (e : Element) : Prop where
  name : e.tag.name = "PropertyGroup"
  child : ∃ child, e.childElements = [child] ∧
    IsTextElement "TargetFrameworks" (joined frameworks).value child

namespace Layout

variable (l : Layout) (scope : Scope) (p : Position)

theorem itemTag_tag (item : Item) : (l.itemTag item).tag scope p =
    ⟨item.kind, scope.default?, item.attributes, p⟩ := by
  cases item with
  | reference name => rfl
  | compile path => rfl
  | package name version nested => cases nested <;> rfl

theorem itemTag_scope (item : Item) : (l.itemTag item).scope scope = scope := by
  cases item with
  | reference name => rfl
  | compile path => rfl
  | package name version nested => cases nested <;> rfl

theorem exists_shows_textElement (tag : WrittenTag) (content : Spelled) : ∃ e,
    Shows scope p [e] (l.textElement tag content) ∧ IsTextElement tag.name content.value e := by
  obtain ⟨inner, hinner, hcontent, hnone⟩ := Xml.exists_writes_spelled (tag.scope scope)
    (p.after (l.gap ++ tag.text true)) content
  exact ⟨_, .element l.isSpaces tag hinner (.spaces l.isSpaces), rfl, hcontent, hnone⟩

theorem exists_shows_item (item : Item) {es : List Element} {t : Text}
    (h : Shows scope (p.after (l.itemText item)) es t) : ∃ e,
    Shows scope p (e :: es) (l.itemText item ++ t) ∧ IsItem scope.default? item e := by
  unfold itemText at h ⊢
  cases hnested : item.nested? with
  | none =>
    simp only [hnested] at h ⊢
    refine ⟨_, .empty l.isSpaces (l.itemTag item) h, ⟨p.after l.gap, l.itemTag_tag _ _ item⟩, ?_⟩
    simp only [hnested]
    rfl
  | some version =>
    simp only [hnested] at h ⊢
    obtain ⟨child, ⟨nodes, hnodes, helements⟩, hchild⟩ := l.exists_shows_textElement scope
      (p.after (l.gap ++ (l.itemTag item).text true)) versionTag version.toSpelled
    -- The tag of an item declares no namespace, so the one around it holds in the item as well.
    rw [← l.itemTag_scope scope item] at hnodes
    refine ⟨_, .element l.isSpaces (l.itemTag item) hnodes h,
      ⟨p.after l.gap, l.itemTag_tag _ _ item⟩, ?_⟩
    simp only [hnested]
    exact ⟨child, helements, hchild⟩

theorem exists_shows_items (items : List Item) : ∃ es,
    Shows scope p es (items.flatMap l.itemText ++ l.gap) ∧
      List.Forall₂ (IsItem scope.default?) items es := by
  induction items generalizing p with
  | nil => exact ⟨[], .spaces l.isSpaces, .nil⟩
  | cons item items ih =>
    obtain ⟨es, hshows, hitems⟩ := ih (p.after (l.itemText item))
    obtain ⟨e, hshows, hitem⟩ := l.exists_shows_item scope p item hshows
    rw [List.flatMap_cons, List.append_assoc]
    exact ⟨e :: es, hshows, .cons hitem hitems⟩

theorem exists_shows_groups (groups : List (List Item)) : ∃ es,
    Shows scope p es (l.groupsText groups) ∧
      List.Forall₂ (IsGroup scope.default?) groups es := by
  unfold groupsText
  induction groups generalizing p with
  | nil => exact ⟨[], .spaces l.isSpaces, .nil⟩
  | cons items groups ih =>
    obtain ⟨es, hshows, hgroups⟩ := ih (p.after (l.groupText items))
    obtain ⟨children, ⟨nodes, hnodes, rfl⟩, hitems⟩ :=
      l.exists_shows_items scope (p.after (l.gap ++ groupTag.text true)) items
    rw [List.flatMap_cons, List.append_assoc]
    exact ⟨_, .element l.isSpaces groupTag hnodes hshows, .cons ⟨⟨_, rfl⟩, hitems⟩ hgroups⟩

theorem exists_shows_frameworks (frameworks : List ListValue) {es : List Element} {t : Text}
    (h : Shows scope (p.after (l.frameworksText frameworks)) es t) : ∃ e,
    Shows scope p (e :: es) (l.frameworksText frameworks ++ t) ∧ IsProperties frameworks e := by
  obtain ⟨child, ⟨nodes, hnodes, helements⟩, hchild⟩ := l.exists_shows_textElement scope
    (p.after (l.gap ++ propertiesTag.text true)) frameworksTag (joined frameworks)
  exact ⟨_, .element l.isSpaces propertiesTag hnodes h, rfl, child, helements, hchild⟩

/-- The text of a legacy project is a document of its groups. -/
theorem parse_legacyText (groups : List (List Item)) : ∃ root : Element,
    Xml.Document.parse (l.legacyText groups) = .ok ⟨root⟩ ∧
      root.tag = ⟨"Project", some legacyNamespace, [], .start⟩ ∧
      List.Forall₂ (IsGroup (some legacyNamespace)) groups root.childElements := by
  obtain ⟨es, ⟨nodes, hnodes, rfl⟩, hgroups⟩ := l.exists_shows_groups (l.legacyTag.scope [])
    (Position.start.after (l.legacyTag.text true)) groups
  have hparse := Xml.Document.parse_of_writes l.legacyTag (show Xml.IsSpaces [] by decide)
    l.isSpaces hnodes
  simp only [List.nil_append] at hparse
  refine ⟨⟨l.legacyTag.tag [] .start, nodes⟩, ?_, rfl, hgroups⟩
  rw [legacyText]
  simp only [List.append_assoc]
  exact hparse

/-- The text of an SDK project is a document of its target frameworks and its groups. -/
theorem parse_sdkText (sdk : Value) (frameworks : List ListValue) (groups : List (List Item)) :
    ∃ root properties es, Xml.Document.parse (l.sdkText sdk frameworks groups) = .ok ⟨root⟩ ∧
      root.tag = ⟨"Project", none, [⟨none, "Sdk", sdk.value⟩], .start⟩ ∧
      root.childElements = properties :: es ∧ IsProperties frameworks properties ∧
      List.Forall₂ (IsGroup none) groups es := by
  let inside := Position.start.after ((l.sdkTag sdk).text true)
  obtain ⟨es, hes, hgroups⟩ := l.exists_shows_groups ((l.sdkTag sdk).scope [])
    (inside.after (l.frameworksText frameworks)) groups
  obtain ⟨properties, ⟨nodes, hnodes, helements⟩, hproperties⟩ :=
    l.exists_shows_frameworks ((l.sdkTag sdk).scope []) inside frameworks hes
  have hparse := Xml.Document.parse_of_writes (l.sdkTag sdk) (show Xml.IsSpaces [] by decide)
    l.isSpaces hnodes
  simp only [List.nil_append, List.append_assoc] at hparse
  refine ⟨⟨(l.sdkTag sdk).tag [] .start, nodes⟩, properties, es, ?_, rfl, helements, hproperties,
    hgroups⟩
  rw [sdkText]
  simp only [List.append_assoc]
  exact hparse

end Layout

end ProjectFile.Listing
