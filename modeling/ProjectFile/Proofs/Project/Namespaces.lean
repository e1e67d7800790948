import ProjectFile.Proofs.Project.Alike
import ProjectFile.Proofs.Xml.View

/-!
Namespaces say nothing to an SDK project. Whichever namespace each element is in, be it by a
default, by a prefix or in none at all, the dialect of a project is the same, an SDK project tells
the same lists, and in either dialect the same packages are read; if a package lacks something, the
same one lacks it.
-/

namespace ProjectFile

open Xml (Document Tag)

/-- The tag whatever namespace its element is in, and wherever it stands. -/
def Xml.Tag.spaceless (t : Tag) : Tag := { t with space? := none, start := .start }

/-- Whether the namespaces of elements are all that makes two documents different, and with them the
places at which the elements start. -/
def Xml.Document.DiffersByNamespaces (a b : Document) : Prop :=
  a.viewed Tag.spaceless = b.viewed Tag.spaceless

theorem Xml.Document.DiffersByNamespaces.alike {a b : Document} (h : a.DiffersByNamespaces b) :
    a.root.Alike Tag.spaceless b.root :=
  Document.alike_of_viewed_eq Tag.spaceless (fun _ => rfl) h

theorem Style.shownBy_spaceless : Style.sdk.ShownBy Tag.spaceless :=
  ⟨fun _ => rfl, fun _ => rfl, fun h => by cases h⟩

/-- An SDK project tells the same as another document whose root is alike. -/
theorem Markup.extract_eq_of_alike {view : Tag → Tag} (hsdk : Style.sdk.ShownBy view)
    {a b : Document} (h : a.root.Alike view b.root) (hstyle : styleOf a = .sdk)
    (storage : Storage) (settings : Settings) (path : Path) :
    extract storage settings path a = extract storage settings path b := by
  have hdeclared := hsdk.sdk?_eq h
  obtain ⟨declared, ha⟩ : ∃ declared, sdk? a.root = some declared := by
    unfold styleOf at hstyle
    split at hstyle
    · next hsome => exact Option.isSome_iff_exists.mp hsome
    · cases hstyle
  rw [ha] at hdeclared
  simp only [extract, ha, ← hdeclared, hsdk.listedSources_eq h, hsdk.frameworksOf_eq h]

/-- Documents that differ by namespaces are of one dialect, tell the same if that is the SDK one,
and have the same packages; if a package lacks something, the same one lacks the same. -/
theorem namespaces_invisible {a b : Document} (h : a.DiffersByNamespaces b) :
    Markup.styleOf a = Markup.styleOf b ∧
    (Markup.styleOf a = .sdk → ∀ storage settings path,
      Markup.extract storage settings path a = Markup.extract storage settings path b) ∧
    ∀ path, (∃ packages, Packages.extract path a = .ok packages ∧
        Packages.extract path b = .ok packages) ∨
      ∃ (n : Nat) (item item' : Xml.Element) (name : Text),
        (Style.sdk.items "PackageReference" a.root)[n]? = some item ∧
        (Style.sdk.items "PackageReference" b.root)[n]? = some item' ∧
        item.Alike Tag.spaceless item' ∧ item.tag.name = item'.tag.name ∧
        Packages.extract path a = .error (Packages.missing path item name) ∧
        Packages.extract path b = .error (Packages.missing path item' name) := by
  have halike := h.alike
  have hsdk := Style.shownBy_spaceless
  refine ⟨?_, fun hstyle => Markup.extract_eq_of_alike hsdk halike hstyle, fun path => ?_⟩
  · rw [Markup.styleOf, Markup.styleOf, hsdk.sdk?_eq halike]
  · have hitems := hsdk.items halike "PackageReference"
    rcases Packages.ofItems_cases hsdk hitems path with
      hok | ⟨n, item, item', name, hitem, hitem', hname, herror, herror'⟩
    · exact .inl hok
    · obtain ⟨hlt, rfl⟩ := List.getElem?_eq_some_iff.mp hitem
      obtain ⟨hlt', rfl⟩ := List.getElem?_eq_some_iff.mp hitem'
      exact .inr ⟨n, _, _, name, hitem, hitem', hitems.get hlt hlt', hname, herror, herror'⟩

/-- An SDK project with its elements in different namespaces, and at the end a package without a
version. -/
def spacedProject (outer middle inner : Option Text) (place : Xml.Position) : Document where
  root := ⟨⟨"Project", outer, [⟨none, "Sdk", "S"⟩], .start⟩, [
    .element ⟨"PropertyGroup", middle, [], ⟨2, 3⟩⟩ [
      .element ⟨"TargetFramework", inner, [], ⟨2, 18⟩⟩ [.text "net8.0"]],
    .element ⟨"ItemGroup", inner, [], ⟨3, 3⟩⟩ [
      .element ⟨"PackageReference", outer, [⟨none, "Include", "P"⟩], ⟨4, 3⟩⟩ [
        .element ⟨"Version", middle, [], ⟨4, 20⟩⟩ [.text " 1.0 "]],
      .element ⟨"PackageReference", middle, [⟨none, "Include", "Q"⟩], place⟩ []]]⟩

/-- Once all elements are in no namespace, and once some are in that of the legacy dialect. -/
theorem namespaces_invisible_spaced :
    let a := spacedProject none none none ⟨5, 3⟩
    let b := spacedProject none (some legacyNamespace) (some "u") ⟨5, 9⟩
    let missing := ProjectError.missingAttribute ⟨"/p/a.proj"⟩ "PackageReference" "Version"
    a.DiffersByNamespaces b ∧ Markup.styleOf b = .sdk ∧
      (∀ storage settings,
        Markup.extract storage settings ⟨"/p/a.proj"⟩ a =
          Markup.extract storage settings ⟨"/p/a.proj"⟩ b) ∧
      Packages.extract ⟨"/p/a.proj"⟩ a = .error (missing ⟨5, 3⟩) ∧
      Packages.extract ⟨"/p/a.proj"⟩ b = .error (missing ⟨5, 9⟩) := by
  intro a b missing
  have h : a.DiffersByNamespaces b := rfl
  obtain ⟨hstyle, hextract, -⟩ := namespaces_invisible h
  have hsdk : Markup.styleOf a = .sdk := by decide
  exact ⟨h, hstyle ▸ hsdk, fun storage settings => hextract hsdk storage settings _,
    by decide +kernel, by decide +kernel⟩

end ProjectFile
