import ProjectFile.Proofs.Project.Membership
import ProjectFile.Proofs.Project.Packages
import ProjectFile.Proofs.Xml.Opening

/-!
Where an item is said to lack something. The position in the error counts lines and characters of
the text without a byte-order mark before it, and leads to the `<` of the start tag of the first
item that lacks something, whatever stands before it.
-/

namespace ProjectFile

namespace Markup

/-- A text without the byte-order mark that may come first. -/
def unmarked (text : Text) : Text :=
  match text with
  | '\uFEFF' :: rest => rest
  | text => text

theorem parse_eq_ok_iff {path : Path} {text : Text} {document : Xml.Document} :
    parse path text = .ok document ↔ Xml.Document.parse (unmarked text) = .ok document := by
  unfold parse unmarked
  constructor
  · intro h
    dsimp only at h
    split at h
    · next hparse =>
      cases h
      exact hparse
    · cases h
  · intro h
    dsimp only
    split
    · next hparse =>
      cases hparse.symm.trans h
      rfl
    · next hparse => cases hparse.symm.trans h

end Markup

namespace Packages

/-- The position in the error about a package is that of the `<` in front of the first item that
lacks something: the tag of this item is read from there, and its name stands behind the `<`. -/
theorem place_of_missing {path path' : Path} {text : Text} {document : Xml.Document}
    {element name : Text} {place : Xml.Position} (hparse : Markup.parse path text = .ok document)
    (hmissing : extract path document = .error (.missingAttribute path' element name place)) :
    element = "PackageReference" ∧ place.character? (Markup.unmarked text) = some '<' ∧
    ∃ item, FirstLacks (Style.sdk.items "PackageReference" document.root) item name ∧
      item.tag.name = element ∧ item.tag.start = place ∧
      Xml.HasTagAt (Markup.unmarked text) place item.tag := by
  obtain ⟨item, _, hfirst, heq⟩ := extract_eq_error_iff.mp hmissing
  obtain ⟨-, rfl, rfl, rfl⟩ := ProjectError.missingAttribute.inj heq
  have hitem : item ∈ document.root.elements := Style.mem_elements_of_mem_items hfirst.mem
  have htag : Xml.HasTagAt (Markup.unmarked text) item.tag.start item.tag :=
    Xml.Document.hasTagAt_start (Markup.parse_eq_ok_iff.mp hparse) hitem
  exact ⟨rfl, htag.character?, item, hfirst, name_of_mem_items hfirst.mem, rfl, htag⟩

/-- A byte-order mark, line ends of two characters, characters outside of ASCII, a comment, a
literal section and prefixes, and then an item without a version. -/
def lackingText : Text :=
  ("\uFEFF<!--é-->\r\n<p:P xmlns:p='u'>\r\n<p:ItemGroup>𝄞<![CDATA[<PackageReference>]]>\r\n" ++
    "𝄞é <p:PackageReference Include='A'/></p:ItemGroup></p:P>").toList

theorem place_of_missing_lacking : ∃ document,
    Markup.parse ⟨"/p/a.proj"⟩ lackingText = .ok document ∧
    extract ⟨"/p/a.proj"⟩ document =
      .error (.missingAttribute ⟨"/p/a.proj"⟩ "PackageReference" "Version" ⟨4, 4⟩) ∧
    (Xml.Position.mk 4 4).character? (Markup.unmarked lackingText) = some '<' ∧
    ∃ item, FirstLacks (Style.sdk.items "PackageReference" document.root) item "Version" ∧
      Xml.HasTagAt (Markup.unmarked lackingText) ⟨4, 4⟩ item.tag := by
  obtain ⟨document, hparse, hmissing⟩ := Xml.Document.exists_of_any
    (show (Xml.Document.parse (Markup.unmarked lackingText)).toOption.any (fun document =>
      extract ⟨"/p/a.proj"⟩ document =
        .error (.missingAttribute ⟨"/p/a.proj"⟩ "PackageReference" "Version" ⟨4, 4⟩)) = true
      by decide +kernel)
  have hparse : Markup.parse ⟨"/p/a.proj"⟩ lackingText = .ok document :=
    Markup.parse_eq_ok_iff.mpr hparse
  have hmissing := of_decide_eq_true hmissing
  obtain ⟨-, hcharacter, item, hfirst, -, -, htag⟩ := place_of_missing hparse hmissing
  exact ⟨document, hparse, hmissing, hcharacter, item, hfirst, htag⟩

end Packages

end ProjectFile
