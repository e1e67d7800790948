import ProjectFile.Proofs.Project.Alike
import ProjectFile.Proofs.Project.Listing
import ProjectFile.Storage.Memory

/-!
Projects read back what they list. In a document of item groups the items of a kind are those of the
groups, one group after another; of each item the value is read that was spelled, and the target
frameworks are the parts that were joined. So the text of a project in either dialect tells its
lists in order.
-/

namespace ProjectFile

open Xml (Element Node Spells)

theorem Markup.parse_of_document {path : Path} {text : Text} {document : Xml.Document}
    (hopen : text.head? = some '<') (h : Xml.Document.parse text = .ok document) :
    parse path text = .ok document := by
  cases text with
  | nil => cases hopen
  | cons c text =>
    obtain rfl := Option.some.inj hopen
    simp [parse, h]

namespace Listing

/-! The items of the groups -/

/-- Whether an element is an item of a kind. -/
def IsItemOf (kind : Text) (space? : Option Text) (item : Item) (e : Element) : Prop :=
  IsItem space? item e ∧ item.kind = kind

/-- The items of a kind in groups, one group after another. -/
def itemsOf (kind : Text) (groups : List (List Item)) : List Item :=
  groups.flatten.filter fun item => item.kind == kind

theorem IsTextElement.filter_elements {s : Style} {name content : Text} {e : Element}
    (h : IsTextElement name content e) (hname : name ≠ ("ItemGroup" : Text)) :
    e.elements.filter (s.matchesName "ItemGroup") = [] := by
  have hmatch : s.matchesName "ItemGroup" e = false :=
    Style.matchesName_of_ne (h.name.trans_ne hname)
  rw [Element.elements_eq_cons, h.childElements,
    List.filter_cons_of_neg (Bool.eq_false_iff.mp hmatch)]
  rfl

section

variable {s : Style} {space? : Option Text} (hs : s = .legacy → space? = some legacyNamespace)

include hs

theorem IsItem.matchesName_eq {item : Item} {e : Element} (h : IsItem space? item e) (kind : Text) :
    s.matchesName kind e = (item.kind == kind) := by
  obtain ⟨p, htag⟩ := h.tag
  cases s with
  | sdk => simp [Style.matchesName, htag]
  | legacy => simp [Style.matchesName, htag, hs rfl]

theorem filter_matchesName {items : List Item} {es : List Element}
    (h : List.Forall₂ (IsItem space?) items es) (kind : Text) :
    List.Forall₂ (IsItemOf kind space?) (items.filter fun item => item.kind == kind)
      (es.filter (s.matchesName kind)) := by
  induction h with
  | nil => exact .nil
  | @cons item e items es hitem _ ih =>
    rw [List.filter_cons, List.filter_cons, hitem.matchesName_eq hs]
    split
    · next hkind => exact .cons ⟨hitem, beq_iff_eq.mp hkind⟩ ih
    · exact ih

/-- At and below an item there are no groups. -/
theorem IsItem.filter_elements {item : Item} {e : Element} (h : IsItem space? item e) :
    e.elements.filter (s.matchesName "ItemGroup") = [] := by
  have hmatch : s.matchesName "ItemGroup" e = false := by
    rw [h.matchesName_eq hs]
    cases item <;> rfl
  rw [Element.elements_eq_cons, List.filter_cons_of_neg (Bool.eq_false_iff.mp hmatch)]
  have hnested := h.nested
  split at hnested
  · rw [hnested]
    rfl
  · obtain ⟨child, hchild, htext⟩ := hnested
    rw [hchild, List.flatMap_singleton]
    exact htext.filter_elements (by decide)

theorem filter_elements_items {items : List Item} {es : List Element}
    (h : List.Forall₂ (IsItem space?) items es) :
    (es.flatMap Element.elements).filter (s.matchesName "ItemGroup") = [] := by
  induction h with
  | nil => rfl
  | cons hitem _ ih =>
    rw [List.flatMap_cons, List.filter_append, hitem.filter_elements hs, ih, List.nil_append]

/-- At and below groups, only the groups themselves are groups. -/
theorem filter_elements_groups {groups : List (List Item)} {es : List Element}
    (h : List.Forall₂ (IsGroup space?) groups es) :
    (es.flatMap Element.elements).filter (s.matchesName "ItemGroup") = es := by
  induction h with
  | nil => rfl
  | @cons items e groups es hgroup _ ih =>
    have hname : s.matchesName "ItemGroup" e = true := by
      obtain ⟨p, htag⟩ := hgroup.tag
      cases s with
      | sdk => simp [Style.matchesName, htag]
      | legacy => simp [Style.matchesName, htag, hs rfl]
    rw [List.flatMap_cons, List.filter_append, ih, Element.elements_eq_cons,
      List.filter_cons_of_pos hname, filter_elements_items hs hgroup.items]
    rfl

theorem flatMap_groups {groups : List (List Item)} {es : List Element}
    (h : List.Forall₂ (IsGroup space?) groups es) (kind : Text) :
    List.Forall₂ (IsItemOf kind space?) (itemsOf kind groups)
      (es.flatMap fun group => group.childElements.filter (s.matchesName kind)) := by
  unfold itemsOf
  induction h with
  | nil => exact .nil
  | @cons items e groups es hgroup _ ih =>
    rw [List.flatten_cons, List.filter_append, List.flatMap_cons]
    exact List.rel_append (filter_matchesName hs hgroup.items kind) ih

/-- The items of a kind in a project are those of its groups, if only other elements than groups
stand before them. -/
theorem items_of_groups (before : List Element) {root : Element} {es : List Element}
    {groups : List (List Item)} (hname : root.tag.name = "Project")
    (hchildren : root.childElements = before ++ es)
    (hbefore : (before.flatMap Element.elements).filter (s.matchesName "ItemGroup") = [])
    (h : List.Forall₂ (IsGroup space?) groups es) (kind : Text) :
    List.Forall₂ (IsItemOf kind space?) (itemsOf kind groups) (s.items kind root) := by
  have hroot : s.matchesName "ItemGroup" root = false := by
    simp [Style.matchesName, hname]
  have hgroups : root.elements.filter (s.matchesName "ItemGroup") = es := by
    rw [Element.elements_eq_cons, List.filter_cons_of_neg (Bool.eq_false_iff.mp hroot), hchildren,
      List.flatMap_append, List.filter_append, hbefore, filter_elements_groups hs h,
      List.nil_append]
  rw [Style.items, hgroups]
  exact flatMap_groups hs h kind

end

/-! What the items say -/

theorem IsItem.attribute?_eq {space? : Option Text} {item : Item} {e : Element}
    (h : IsItem space? item e) (name : Text) : e.tag.attribute? name =
      (item.attributes.find? fun a => a.space?.isNone && a.name == name).map
        Xml.Attribute.value := by
  obtain ⟨p, htag⟩ := h.tag
  rw [Xml.Tag.attribute?, htag]

theorem Value.nonBlank?_value (v : Value) : Text.nonBlank? v.value = some v.value :=
  Text.nonBlank?_of_isTrimmed v.isTrimmed

/-- An attribute with a trimmed value is read as it is. -/
theorem Value.value?_eq {v : Value} {e : Element} {name : Text}
    (h : e.tag.attribute? name = some v.value) : Markup.value? e name = some v.value := by
  rw [Markup.value?, h]
  exact v.nonBlank?_value

theorem ListValue.isPiece_value (v : ListValue) : v.value.IsPiece ';' := ⟨v.isTrimmed, v.single⟩

/-- Splitting and trimming give back the values that were joined. -/
theorem pieces_joined (values : List ListValue) :
    Text.pieces ';' (joined values).value = values.map fun v => v.value := by
  have hpieces : ∀ part ∈ values.map fun v => v.value, part.IsPiece ';' := by
    intro part hpart
    obtain ⟨v, -, rfl⟩ := List.mem_map.mp hpart
    exact v.isPiece_value
  exact Text.pieces_join (by decide) (List.forall_mem_nil _) hpieces

theorem filterMap_itemsOf {α : Type} {kind : Text} {f : Item → Option α}
    (hf : ∀ item, item.kind ≠ kind → f item = none) (groups : List (List Item)) :
    (itemsOf kind groups).filterMap f = groups.flatten.filterMap f := by
  rw [itemsOf, List.filterMap_filter]
  refine List.filterMap_congr fun item _ => ?_
  split
  · rfl
  · next hkind => exact (hf item (by simpa using hkind)).symm

section

variable {s : Style} {space? : Option Text} {groups : List (List Item)} {root : Element}
  (h : ∀ kind, List.Forall₂ (IsItemOf kind space?) (itemsOf kind groups) (s.items kind root))

include h

theorem referencesOf_eq :
    Markup.referencesOf s root = groups.flatten.filterMap Item.reference? := by
  have hread (item : Item) (e : Element) (he : IsItemOf "Reference" space? item e) :
      item.reference? = Markup.value? e "Include" := by
    obtain ⟨hitem, hkind⟩ := he
    cases item with
    | reference name => exact (Value.value?_eq (hitem.attribute?_eq "Include")).symm
    | compile path => cases hkind
    | package name version nested => cases hkind
  have hother (item : Item) (hkind : item.kind ≠ ("Reference" : Text)) :
      item.reference? = none := by
    cases item with
    | reference name => exact absurd rfl hkind
    | compile path => rfl
    | package name version nested => rfl
  rw [Markup.referencesOf, ← filterMap_eq_of_forall₂ (h "Reference") hread,
    filterMap_itemsOf hother]

theorem listedSources_eq (directory : Path) : Markup.listedSources s root directory =
    (groups.flatten.filterMap Item.compiled?).map directory.resolveInclude := by
  let resolved (item : Item) : Option Path := item.compiled?.map directory.resolveInclude
  have hother (item : Item) (hkind : item.kind ≠ ("Compile" : Text)) : resolved item = none := by
    cases item with
    | reference name => rfl
    | compile path => exact absurd rfl hkind
    | package name version nested => rfl
  calc Markup.listedSources s root directory
    _ = (itemsOf "Compile" groups).flatMap fun item => (resolved item).toList := by
      refine (flatMap_eq_of_forall₂ (h "Compile") ?_).symm
      rintro item e ⟨hitem, hkind⟩
      cases item with
      | reference name => cases hkind
      | compile path =>
        have hinclude : e.tag.attribute? "Include" = some path.value :=
          hitem.attribute?_eq "Include"
        simp only [hinclude, path.isPiece_value.pieces_eq, List.map_singleton]
        rfl
      | package name version nested => cases hkind
    _ = (itemsOf "Compile" groups).filterMap resolved := (List.filterMap_eq_flatMap_toList _ _).symm
    _ = groups.flatten.filterMap resolved := filterMap_itemsOf hother groups
    _ = (groups.flatten.filterMap Item.compiled?).map directory.resolveInclude :=
      List.map_filterMap.symm

end

/-- Of a package item the package is read that it names. -/
theorem ofItem_package {space? : Option Text} {name version : Value} {nested : Bool} {e : Element}
    (h : IsItem space? (.package name version nested) e) :
    Packages.isActive e = true ∧ Packages.ofItem e = .ok ⟨name.value, version.value⟩ := by
  have hinclude : e.tag.attribute? "Include" = some name.value := by
    rw [h.attribute?_eq]
    cases nested <;> rfl
  have hversion : Packages.version? e = some version.value := by
    rw [Packages.version?]
    cases nested with
    | false =>
      rw [Value.value?_eq (h.attribute?_eq "Version")]
      rfl
    | true =>
      have hnone : Markup.value? e "Version" = none := by
        rw [Markup.value?, h.attribute?_eq]
        rfl
      obtain ⟨child, hchild, htext⟩ := h.nested
      have hmatch : Style.sdk.matchesName "Version" child = true := by
        rw [Style.matchesName, htext.name]
        decide
      rw [hnone, hchild, List.find?_cons_of_pos hmatch, Option.bind_some, htext.content]
      exact version.nonBlank?_value
  constructor
  · rw [Packages.isActive, Xml.Tag.hasAttribute, hinclude]
    rfl
  · rw [Packages.ofItem, Value.value?_eq hinclude, hversion]

theorem ofItems_eq {space? : Option Text} {items : List Item} {es : List Element}
    (h : List.Forall₂ (IsItemOf "PackageReference" space?) items es) (path : Path) :
    Packages.ofItems path es = .ok (items.filterMap Item.package?) := by
  induction h with
  | nil => rfl
  | @cons item e items es he _ ih =>
    obtain ⟨hitem, hkind⟩ := he
    cases item with
    | reference name => cases hkind
    | compile path => cases hkind
    | package name version nested =>
      obtain ⟨hactive, hpackage⟩ := ofItem_package hitem
      rw [Packages.ofItems, if_pos hactive, hpackage, ih]
      rfl

theorem extract_eq {space? : Option Text} {groups : List (List Item)} {root : Element}
    (h : ∀ kind, List.Forall₂ (IsItemOf kind space?) (itemsOf kind groups)
      (Style.sdk.items kind root)) (path : Path) :
    Packages.extract path ⟨root⟩ = .ok (groups.flatten.filterMap Item.package?) := by
  have hother (item : Item) (hkind : item.kind ≠ ("PackageReference" : Text)) :
      item.package? = none := by
    cases item with
    | reference name => rfl
    | compile path => rfl
    | package name version nested => exact absurd rfl hkind
  rw [Packages.extract, ofItems_eq (h "PackageReference"), filterMap_itemsOf hother]

/-! What the projects say -/

theorem IsProperties.exists_descendants {frameworks : List ListValue} {e : Element}
    (h : IsProperties frameworks e) : ∃ child, e.descendants = [child] ∧
      IsTextElement "TargetFrameworks" (joined frameworks).value child := by
  obtain ⟨child, hchild, htext⟩ := h.child
  refine ⟨child, ?_, htext⟩
  rw [Element.descendants, Node.elementsOf_eq_flatMap, ← Element.childElements, hchild,
    List.flatMap_singleton, Element.elements_eq_cons, htext.childElements]
  rfl

section

variable {space? : Option Text} {groups : List (List Item)} {es : List Element}
  (h : List.Forall₂ (IsGroup space?) groups es)

include h

theorem name_of_mem_groups : ∀ e ∈ es, e.tag.name = "ItemGroup" := by
  induction h with
  | nil => simp
  | cons hgroup _ ih =>
    obtain ⟨⟨p, htag⟩, -⟩ := hgroup
    exact List.forall_mem_cons.mpr ⟨by rw [htag], ih⟩

/-- Groups declare no SDK. -/
theorem findSome?_childSdk? : es.findSome? Markup.childSdk? = none := by
  refine List.findSome?_eq_none_iff.mpr fun e he => ?_
  rw [Markup.childSdk?, name_of_mem_groups h e he, if_neg (by decide), if_neg (by decide)]

theorem frameworksOf_eq {root properties : Element} {frameworks : List ListValue}
    (hchildren : root.childElements = properties :: es)
    (hproperties : IsProperties frameworks properties) :
    Markup.frameworksOf root = frameworks.map fun v => v.value := by
  obtain ⟨child, hdescendants, htext⟩ := hproperties.exists_descendants
  have hgroups : es.filter (Style.sdk.matchesName "PropertyGroup") = [] := by
    refine List.filter_eq_nil_iff.mpr fun e he => ?_
    rw [Style.matchesName, name_of_mem_groups h e he]
    decide
  have hmatch : Style.sdk.matchesName "PropertyGroup" properties = true := by
    rw [Style.matchesName, hproperties.name]
    decide
  have hall : Style.sdk.properties root = [child] := by
    rw [Style.properties, hchildren, List.filter_cons_of_pos hmatch, hgroups,
      List.flatMap_singleton, hdescendants]
  have hframeworks : Style.sdk.matchesName "TargetFrameworks" child = true := by
    rw [Style.matchesName, htext.name]
    decide
  rw [Markup.frameworksOf, hall, List.filter_cons_of_pos (by rw [hframeworks, Bool.or_true]),
    List.filter_nil, List.flatMap_singleton, htext.content, pieces_joined]

end

/-- The text of a project reads back as what it lists, in order: a legacy project with its
references and sources, and an SDK project with its SDK, its target frameworks and its sources,
which those follow that a scan finds. Its packages are read in either dialect. What can be listed is
every trimmed text of legal characters, in the lists with semicolons if it holds none. -/
theorem reads_back (l : Layout) (groups : List (List Item)) (storage : Storage)
    (settings : Settings) {path directory : Path} (hparent : path.parent? = some directory) :
    (∀ t : Text, Xml.IsLegal t → t.IsTrimmed → (∃ v : Value, v.value = t) ∧
      (';' ∉ t → ∃ v : ListValue, v.value = t)) ∧
    (∃ document, Markup.parse path (l.legacyText groups) = .ok document ∧
      (Markup.extract storage settings path document).result =
        .ok (.legacy (groups.flatten.filterMap Item.reference?)
          ((groups.flatten.filterMap Item.compiled?).map directory.resolveInclude)) ∧
      Packages.extract path document = .ok (groups.flatten.filterMap Item.package?)) ∧
    ∀ (sdk : Value) (frameworks : List ListValue) (scanned : List Path),
      (storage.scan settings directory).result = .ok scanned →
      ∃ document, Markup.parse path (l.sdkText sdk frameworks groups) = .ok document ∧
        (Markup.extract storage settings path document).result =
          .ok (.sdk sdk.value
            ((groups.flatten.filterMap Item.compiled?).map directory.resolveInclude ++ scanned)
            (frameworks.map fun v => v.value)) ∧
        Packages.extract path document = .ok (groups.flatten.filterMap Item.package?) := by
  refine ⟨fun t hlegal htrimmed => ?_, ?_, ?_⟩
  · obtain ⟨v, rfl⟩ := exists_value hlegal htrimmed
    exact ⟨⟨v, rfl⟩, fun hsingle => ⟨⟨v, hsingle⟩, rfl⟩⟩
  · obtain ⟨root, hparse, htag, hgroups⟩ := l.parse_legacyText groups
    have hname : root.tag.name = "Project" := by rw [htag]
    have hlegacy := items_of_groups (s := .legacy) (fun _ => rfl) [] hname rfl rfl hgroups
    have hsdk := items_of_groups (s := .sdk) (fun h => by cases h) [] hname rfl rfl hgroups
    have hnone : Markup.sdk? root = none := by
      rw [Markup.sdk?, findSome?_childSdk? hgroups, Markup.value?, Xml.Tag.attribute?, htag]
      rfl
    refine ⟨⟨root⟩, Markup.parse_of_document rfl hparse, ?_, extract_eq hsdk path⟩
    rw [Markup.result_extract hparent]
    simp only [hnone, referencesOf_eq hlegacy, listedSources_eq hlegacy]
  · intro sdk frameworks scanned hscan
    obtain ⟨root, properties, es, hparse, htag, hchildren, hproperties, hgroups⟩ :=
      l.parse_sdkText sdk frameworks groups
    have hname : root.tag.name = "Project" := by rw [htag]
    have hbefore : ([properties].flatMap Element.elements).filter
        (Style.sdk.matchesName "ItemGroup") = [] := by
      obtain ⟨child, hchild, htext⟩ := hproperties.child
      have hmatch : Style.sdk.matchesName "ItemGroup" properties = false := by
        rw [Style.matchesName, hproperties.name]
        decide
      rw [List.flatMap_singleton, Element.elements_eq_cons, hchild, List.flatMap_singleton,
        List.filter_cons_of_neg (Bool.eq_false_iff.mp hmatch), htext.filter_elements (by decide)]
    have hitems := items_of_groups (s := .sdk) (fun h => by cases h) [properties] hname hchildren
      hbefore hgroups
    have hdeclared : Markup.sdk? root = some sdk.value := by
      have hvalue : Markup.value? root "Sdk" = some sdk.value := by
        refine Value.value?_eq ?_
        rw [Xml.Tag.attribute?, htag]
        rfl
      rw [Markup.sdk?, hvalue]
      rfl
    refine ⟨⟨root⟩, Markup.parse_of_document rfl hparse, ?_, extract_eq hitems path⟩
    rw [Markup.result_extract hparent]
    simp only [hdeclared, hscan, listedSources_eq hitems,
      frameworksOf_eq hgroups hchildren hproperties]
    rfl

/-- A text that is written as it is. -/
def plainValue (t : Text) (h : Xml.IsLegal t ∧ Xml.IsLiteral t ∧ t.IsTrimmed) : Value where
  value := t
  raw := t
  legal := h.1
  spells := .literal h.2.1
  isTrimmed := h.2.2

def sampleReference : Value where
  value := "A & B"
  raw := "A &amp; B"
  legal := by decide
  spells := (Spells.literal (t := "A ") (by decide)).append
    (.cons (.entity "amp" (by decide)) (.literal (t := " B") (by decide)))
  isTrimmed := by decide

def sampleSource : ListValue where
  value := "a\tb.cs"
  raw := "a&#x9;b.cs"
  legal := by decide
  spells := (Spells.literal (t := "a") (by decide)).append
    (.cons (.hexadecimal "9" ⟨by decide, [9], by decide, by decide, by decide⟩)
      (.literal (t := "b.cs") (by decide)))
  isTrimmed := by decide
  single := by decide

def sampleVersion : Value where
  value := "1\r2"
  raw := "1&#13;2"
  legal := by decide
  spells := (Spells.literal (t := "1") (by decide)).append
    (.cons (.decimal "13" ⟨by decide, [1, 3], by decide, by decide, by decide⟩)
      (.literal (t := "2") (by decide)))
  isTrimmed := by decide

def sampleSdk : Value := plainValue "S" (by decide)

def sampleFrameworks : List ListValue :=
  [⟨plainValue "net8.0" (by decide), by decide⟩,
    ⟨plainValue "net9.0" (by decide), by decide⟩]

def sampleGroups : List (List Item) :=
  [[.reference sampleReference, .compile sampleSource],
    [.package (plainValue "P" (by decide)) sampleVersion true]]

def sampleLayout : Layout := ⟨"\n ", '"', by decide, by decide⟩

def sampleStorage : Storage := ((Memory.Tree.empty ⟨"/p"⟩).insert ⟨"c.cs"⟩ (.file [])).storage

example : sampleLayout.groupText [.reference sampleReference, .compile sampleSource] =
    ("\n <ItemGroup>\n <Reference Include=\"A &amp; B\"/>\n " ++
      "<Compile Include=\"a&#x9;b.cs\"/>\n </ItemGroup>" : Text) := by
  decide +kernel

/-- An ampersand, a tab and a carriage return come back from their references. -/
theorem reads_back_sample :
    (⟨"/p/a.proj"⟩ : Path).parent? = some ⟨"/p"⟩ ∧
    (sampleStorage.scan Settings.default ⟨"/p"⟩).result = .ok [⟨"/p/c.cs"⟩] ∧
    (∃ document,
      Markup.parse ⟨"/p/a.proj"⟩ (sampleLayout.legacyText sampleGroups) = .ok document ∧
      (Markup.extract sampleStorage Settings.default ⟨"/p/a.proj"⟩ document).result =
        .ok (.legacy ["A & B"] [⟨"/p/a\tb.cs"⟩]) ∧
      Packages.extract ⟨"/p/a.proj"⟩ document = .ok [⟨"P", "1\r2"⟩]) ∧
    ∃ document,
      Markup.parse ⟨"/p/a.proj"⟩ (sampleLayout.sdkText sampleSdk sampleFrameworks sampleGroups) =
        .ok document ∧
      (Markup.extract sampleStorage Settings.default ⟨"/p/a.proj"⟩ document).result =
        .ok (.sdk "S" [⟨"/p/a\tb.cs"⟩, ⟨"/p/c.cs"⟩] ["net8.0", "net9.0"]) ∧
      Packages.extract ⟨"/p/a.proj"⟩ document = .ok [⟨"P", "1\r2"⟩] := by
  have hparent : (⟨"/p/a.proj"⟩ : Path).parent? = some ⟨"/p"⟩ := by decide +kernel
  have hscan : (sampleStorage.scan Settings.default ⟨"/p"⟩).result = .ok [⟨"/p/c.cs"⟩] := by
    decide +kernel
  have hsources : (sampleGroups.flatten.filterMap Item.compiled?).map (Path.resolveInclude ⟨"/p"⟩) =
      [⟨"/p/a\tb.cs"⟩] := by decide +kernel
  have hreferences : sampleGroups.flatten.filterMap Item.reference? = ["A & B"] := rfl
  have hpackages : sampleGroups.flatten.filterMap Item.package? = [⟨"P", "1\r2"⟩] := rfl
  obtain ⟨-, hlegacy, hsdk⟩ :=
    reads_back sampleLayout sampleGroups sampleStorage Settings.default hparent
  have hsdk := hsdk sampleSdk sampleFrameworks _ hscan
  rw [hsources, hpackages] at hlegacy hsdk
  rw [hreferences] at hlegacy
  exact ⟨hparent, hscan, hlegacy, hsdk⟩

end Listing

end ProjectFile
