import ProjectFile.Proofs.Project.Alike
import ProjectFile.Proofs.Xml.Asides

/-!
Comments and instructions say nothing about a project. Documents that differ by them, wherever they
stand in the content, tell the same dialect, the same lists and the same packages; if a package
lacks something, the same one lacks it, though it may be said to stand elsewhere.
-/

namespace ProjectFile

open Xml (Document Tag)

theorem Style.shownBy_placeless (s : Style) : s.ShownBy Tag.placeless :=
  ⟨fun _ => rfl, fun _ => rfl, fun _ _ => rfl⟩

/-- Documents that differ by asides tell the same, and if a package lacks something, the same one
lacks the same. -/
theorem asides_invisible {a b : Document} (h : a.DiffersByAsides b) :
    Markup.styleOf a = Markup.styleOf b ∧
    (∀ storage settings path,
      Markup.extract storage settings path a = Markup.extract storage settings path b) ∧
    ∀ path, (∃ packages, Packages.extract path a = .ok packages ∧
        Packages.extract path b = .ok packages) ∨
      ∃ (n : Nat) (item item' : Xml.Element) (name : Text),
        (Style.sdk.items "PackageReference" a.root)[n]? = some item ∧
        (Style.sdk.items "PackageReference" b.root)[n]? = some item' ∧
        item.tag.name = item'.tag.name ∧
        Packages.extract path a = .error (Packages.missing path item name) ∧
        Packages.extract path b = .error (Packages.missing path item' name) := by
  have halike := h.alike
  have hsdk := Style.sdk.shownBy_placeless
  have hlegacy := Style.legacy.shownBy_placeless
  refine ⟨?_, fun storage settings path => ?_, fun path => ?_⟩
  · rw [Markup.styleOf, Markup.styleOf, hsdk.sdk?_eq halike]
  · simp only [Markup.extract, hsdk.sdk?_eq halike, hsdk.listedSources_eq halike,
      hsdk.frameworksOf_eq halike, hlegacy.listedSources_eq halike, hlegacy.referencesOf_eq halike]
  · exact Packages.ofItems_cases hsdk (hsdk.items halike "PackageReference") path

/-- The tag of an item for a package. -/
def sampleTag (place : Xml.Position) : Tag :=
  ⟨"PackageReference", none, [⟨none, "Include", "P"⟩], place⟩

/-- An SDK project with some content for its frameworks and a package without a version. -/
def sampleProject (frameworks : List Xml.Node) (place : Xml.Position) : Document where
  root := ⟨⟨"Project", none, [⟨none, "Sdk", "S"⟩], .start⟩, [
    .element ⟨"PropertyGroup", none, [], ⟨2, 3⟩⟩ [
      .element ⟨"TargetFrameworks", none, [], ⟨2, 18⟩⟩ frameworks],
    .element ⟨"ItemGroup", none, [], ⟨3, 3⟩⟩ [.element (sampleTag place) []]]⟩

/-- A comment in the middle of a framework name, with a line end in it. -/
theorem asides_invisible_sample :
    let a := sampleProject [.text "net8.0;net9.0"] ⟨3, 14⟩
    let b := sampleProject [.text "net8", .comment "\n", .text ".0;net9.0"] ⟨4, 14⟩
    let missing := ProjectError.missingAttribute ⟨"/p/a.proj"⟩ "PackageReference" "Version"
    a.DiffersByAsides b ∧ Markup.frameworksOf b.root = ["net8.0", "net9.0"] ∧
      (∀ storage settings,
        Markup.extract storage settings ⟨"/p/a.proj"⟩ a =
          Markup.extract storage settings ⟨"/p/a.proj"⟩ b) ∧
      Packages.extract ⟨"/p/a.proj"⟩ a = .error (missing ⟨3, 14⟩) ∧
      Packages.extract ⟨"/p/a.proj"⟩ b = .error (missing ⟨4, 14⟩) := by
  intro a b missing
  have hcomment : Xml.AsideAdded [.text "net8.0;net9.0"]
      [.text "net8", .comment "\n", .text ".0;net9.0"] := .within rfl [] [] "net8" ".0;net9.0"
  have hplace : (sampleTag ⟨3, 14⟩).placeless = (sampleTag ⟨4, 14⟩).placeless := rfl
  have h : a.DiffersByAsides b :=
    .trans _ _ _ (.rel _ _ (.inside (.inside (.inside hcomment _ [] []) _ [] _) _ [] []))
      (.rel _ _ (.inside (.inside (.moved hplace [] [] []) _ [_] []) _ [] []))
  obtain ⟨-, hextract, -⟩ := asides_invisible h
  exact ⟨h, by decide +kernel, fun storage settings => hextract storage settings _,
    by decide +kernel, by decide +kernel⟩

end ProjectFile
