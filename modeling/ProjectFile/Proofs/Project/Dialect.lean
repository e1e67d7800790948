import ProjectFile.Project.Markup
import ProjectFile.Proofs.Project.Items

/-!
The two dialects. A project is an SDK project exactly if it declares an SDK in one of three ways. A
project that declares none is a legacy project, and what is read of it is in its document alone: the
values of the items in its namespace, whatever is stored around it and however reading is set up.
-/

namespace ProjectFile

namespace Markup

/-- Whether an element has an attribute of the name that is not blank. -/
def HasValue (e : Xml.Element) (name : Text) : Prop :=
  ∃ value, e.tag.attribute? name = some value ∧ value.trim ≠ []

/-- Whether a project declares an SDK: on its root, or in an `Sdk` element or an import that is
directly in it. -/
def DeclaresSdk (root : Xml.Element) : Prop :=
  HasValue root "Sdk" ∨ ∃ e ∈ root.childElements,
    e.tag.name = "Sdk" ∧ HasValue e "Name" ∨ e.tag.name = "Import" ∧ HasValue e "Sdk"

/-- The `Include` values of items, trimmed, without those of which nothing is left. -/
def included (items : List Xml.Element) : List Text :=
  ((items.filterMap fun item => item.tag.attribute? "Include").map Text.trim).filter (· ≠ [])

/-- The pieces of the `Include` values of items, trimmed, without those of which nothing is left. -/
def includedPieces (items : List Xml.Element) : List Text :=
  (((items.filterMap fun item => item.tag.attribute? "Include").flatMap (Text.splitOn ';')).map
    Text.trim).filter (· ≠ [])

theorem isSome_value?_iff {e : Xml.Element} {name : Text} :
    (value? e name).isSome = true ↔ HasValue e name := by
  simp only [value?, Text.nonBlank?_eq_ite, HasValue, Option.isSome_bind, Option.any_eq_true]
  refine exists_congr fun value => and_congr_right fun _ => ?_
  split <;> simp_all

theorem isSome_childSdk?_iff {e : Xml.Element} : (childSdk? e).isSome = true ↔
    e.tag.name = "Sdk" ∧ HasValue e "Name" ∨ e.tag.name = "Import" ∧ HasValue e "Sdk" := by
  rw [← isSome_value?_iff, ← isSome_value?_iff, childSdk?]
  constructor
  · intro h
    split at h
    · next hname => exact .inl ⟨hname, h⟩
    · split at h
      · next hname => exact .inr ⟨hname, h⟩
      · cases h
  · rintro (⟨hname, h⟩ | ⟨hname, h⟩)
    · rwa [if_pos hname]
    · rwa [if_neg (by rw [hname]; decide), if_pos hname]

/-- An SDK is found exactly if one is declared. -/
theorem isSome_sdk?_iff {root : Xml.Element} : (sdk? root).isSome = true ↔ DeclaresSdk root := by
  simp only [sdk?, Option.isSome_or, Bool.or_eq_true, isSome_value?_iff,
    List.findSome?_isSome_iff, isSome_childSdk?_iff, DeclaresSdk]

instance (root : Xml.Element) : Decidable (DeclaresSdk root) :=
  decidable_of_iff _ isSome_sdk?_iff

theorem sdk?_eq_none_iff {root : Xml.Element} : sdk? root = none ↔ ¬ DeclaresSdk root := by
  rw [← isSome_sdk?_iff, Bool.not_eq_true, Option.isSome_eq_false_iff, Option.isNone_iff_eq_none]

/-- A project is a legacy project exactly if it declares no SDK. -/
theorem styleOf_eq_legacy_iff {document : Xml.Document} :
    styleOf document = .legacy ↔ ¬ DeclaresSdk document.root := by
  rw [← isSome_sdk?_iff, styleOf]
  split <;> simp_all

theorem referencesOf_eq_included (s : Style) (root : Xml.Element) :
    referencesOf s root = included (s.items "Reference" root) := by
  rw [referencesOf, included, ← Text.filterMap_nonBlank?, List.filterMap_filterMap]
  rfl

theorem listedSources_eq_map (s : Style) (root : Xml.Element) (directory : Path) :
    listedSources s root directory =
      (includedPieces (s.items "Compile" root)).map directory.resolveInclude := by
  rw [listedSources, includedPieces, ← Text.filterMap_nonBlank?]
  induction s.items "Compile" root with
  | nil => rfl
  | cons item items ih =>
    rw [List.flatMap_cons, ih, List.filterMap_cons]
    cases item.tag.attribute? "Include" with
    | none => rfl
    | some value =>
      rw [List.flatMap_cons, List.filterMap_append, List.map_append]
      rfl

/-- Of a project that declares no SDK the same is read from its document whatever the storage and
the settings are: the values of the `Reference` items and the paths that the pieces of the `Compile`
items name, each item counted once for its place if it and its group are in the legacy namespace.
Nothing is found by a scan, and there are no target frameworks. -/
theorem extract_legacy {path directory : Path} (hparent : path.parent? = some directory)
    {document : Xml.Document} (hplain : ¬ DeclaresSdk document.root) :
    styleOf document = .legacy ∧ ∃ m references compiled,
      (∀ storage settings, (extract storage settings path document).result = .ok m) ∧
      Style.legacy.Enumerates "Reference" document.root references ∧
      Style.legacy.Enumerates "Compile" document.root compiled ∧
      m.style = .legacy ∧
      m.references = included (references.map Prod.snd) ∧
      m.sources = (includedPieces (compiled.map Prod.snd)).map directory.resolveInclude ∧
      m.targetFrameworks = [] := by
  refine ⟨styleOf_eq_legacy_iff.mpr hplain,
    .legacy (referencesOf .legacy document.root) (listedSources .legacy document.root directory),
    _, _, fun storage settings => ?_, Style.enumerates_placedItems _ _ _,
    Style.enumerates_placedItems _ _ _, rfl, ?_, ?_, rfl⟩
  · rw [result_extract hparent, sdk?_eq_none_iff.mpr hplain]
  · rw [Style.map_snd_placedItems]
    exact referencesOf_eq_included _ _
  · rw [Style.map_snd_placedItems]
    exact listedSources_eq_map _ _ _

/-- An element with an `Include` value and nothing in it. -/
def sampleItem (name : Text) (space? : Option Text) (value : Text) : Xml.Node :=
  .element ⟨name, space?, [⟨none, "Include", value⟩], .start⟩ []

/-- A project with a blank `Sdk` attribute, a group in the legacy namespace with an item outside of
it, and a group outside of it with an item in it. -/
def sampleLegacy : Xml.Document where
  root := ⟨⟨"Project", some legacyNamespace, [⟨none, "Sdk", " "⟩], .start⟩, [
    .element ⟨"ItemGroup", some legacyNamespace, [], .start⟩ [
      sampleItem "Reference" (some legacyNamespace) " R ",
      sampleItem "Reference" none "Q",
      sampleItem "Compile" (some legacyNamespace) "a.cs; ;..\\b.cs"],
    .element ⟨"ItemGroup", none, [], .start⟩ [
      sampleItem "Compile" (some legacyNamespace) "c.cs"]]⟩

theorem extract_legacy_sample : ¬ DeclaresSdk sampleLegacy.root ∧ ∀ storage settings,
    (extract storage settings ⟨"/p/a.proj"⟩ sampleLegacy).result =
      .ok (.legacy ["R"] [⟨"/p/a.cs"⟩, ⟨"/b.cs"⟩]) := by
  have hplain : ¬ DeclaresSdk sampleLegacy.root := by decide
  have hparent : Path.parent? ⟨"/p/a.proj"⟩ = some ⟨"/p"⟩ := by decide
  obtain ⟨-, m, -, -, hm, -⟩ := extract_legacy hparent hplain
  -- As the storage does not matter, one that lists nothing shows what is read with any.
  have hnone := hm ⟨fun _ => false, fun _ => false, fun _ => .ok [], fun _ _ => pure []⟩ .default
  have hvalue : (.ok m : Except ProjectError Markup) =
      .ok (.legacy ["R"] [⟨"/p/a.cs"⟩, ⟨"/b.cs"⟩]) := hnone.symm.trans (by decide +kernel)
  exact ⟨hplain, fun storage settings => (hm storage settings).trans hvalue⟩

end Markup

end ProjectFile
