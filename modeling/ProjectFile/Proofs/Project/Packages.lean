import Mathlib.Data.List.Forall2
import ProjectFile.Project.Packages
import ProjectFile.Proofs.Project.Dialect

/-!
Which packages a project names, and when it names none. Items that only update or remove a package
are passed over. Each other one has to name its package and a version; if all do, there is one
package for each of them in their order, and otherwise the first that does not is the error,
whatever comes after it.
-/

namespace ProjectFile

namespace Markup

theorem value?_eq_some_iff {e : Xml.Element} {name v : Text} : value? e name = some v ↔
    ∃ value, e.tag.attribute? name = some value ∧ value.trim = v ∧ v ≠ [] := by
  simp only [value?, Option.bind_eq_some_iff, Text.nonBlank?_eq_ite]
  refine exists_congr fun value => and_congr_right fun _ => ?_
  split
  · next h => simp [h, eq_comm]
  · next h =>
    rw [Option.some.injEq]
    exact ⟨fun heq => ⟨heq, heq ▸ h⟩, And.left⟩

theorem value?_eq_none_iff {e : Xml.Element} {name : Text} :
    value? e name = none ↔ ¬ HasValue e name := by
  rw [← isSome_value?_iff, Bool.not_eq_true, Option.isSome_eq_false_iff, Option.isNone_iff_eq_none]

end Markup

/-- Partners for all elements of a list are a list of partners. -/
theorem exists_forall₂_iff {α β : Type} {R : α → β → Prop} {as : List α} :
    (∃ bs, List.Forall₂ R as bs) ↔ ∀ a ∈ as, ∃ b, R a b := by
  induction as with
  | nil => simp
  | cons a as ih =>
    rw [List.forall_mem_cons, ← ih]
    constructor
    · rintro ⟨_, hab | ⟨hab, has⟩⟩
      exact ⟨⟨_, hab⟩, _, has⟩
    · rintro ⟨⟨b, hab⟩, bs, has⟩
      exact ⟨b :: bs, .cons hab has⟩

namespace Packages

open Markup (HasValue value?_eq_some_iff value?_eq_none_iff)

/-- Whether an item is about a package that the project has: it names one, or at least it does not
only update or remove one. -/
def IsActive (item : Xml.Element) : Prop :=
  ¬ (item.tag.attribute? "Include" = none ∧
    (item.tag.attribute? "Update" ≠ none ∨ item.tag.attribute? "Remove" ≠ none))

instance (item : Xml.Element) : Decidable (IsActive item) :=
  inferInstanceAs (Decidable (¬ _))

/-- The version that an item asks for: that of its attribute, or if this is absent or blank the text
of the first element of that name in it. -/
inductive HasVersion (item : Xml.Element) : Text → Prop
  | ofAttribute {value : Text} (h : item.tag.attribute? "Version" = some value)
      (hne : value.trim ≠ []) : HasVersion item value.trim
  | ofElement {before after : List Xml.Element} {child : Xml.Element}
      (hblank : ¬ HasValue item "Version")
      (hchildren : item.childElements = before ++ child :: after)
      (hfirst : ∀ e ∈ before, e.tag.name ≠ "Version") (hname : child.tag.name = "Version")
      (hne : child.content.trim ≠ []) : HasVersion item child.content.trim

/-- Whether an item names a package: the value of its `Include`, in a version that it asks for. -/
structure Names (item : Xml.Element) (package : Package) : Prop where
  name : ∃ value, item.tag.attribute? "Include" = some value ∧ value.trim = package.name
  name_ne : package.name ≠ []
  version : HasVersion item package.version

/-- The part that an item lacks: its name, or if it has one its version. -/
inductive Lacks (item : Xml.Element) : Text → Prop
  | name (h : ¬ HasValue item "Include") : Lacks item "Include"
  | version (h : HasValue item "Include") (hnone : ∀ v, ¬ HasVersion item v) : Lacks item "Version"

theorem isActive_iff {item : Xml.Element} : isActive item = true ↔ IsActive item := by
  simp only [isActive, IsActive, Xml.Tag.hasAttribute, Bool.or_eq_true, Bool.not_eq_true',
    Bool.or_eq_false_iff, Option.isSome_iff_ne_none, Option.isSome_eq_false_iff,
    Option.isNone_iff_eq_none, not_and, not_or, not_not, ne_eq]
  exact Decidable.or_iff_not_imp_left.trans (by rw [not_not])

theorem version?_eq_some_iff {item : Xml.Element} {v : Text} :
    version? item = some v ↔ HasVersion item v := by
  rw [version?, Option.or_eq_some_iff, value?_eq_some_iff, value?_eq_none_iff]
  constructor
  · rintro (⟨value, hvalue, rfl, hne⟩ | ⟨hblank, h⟩)
    · exact .ofAttribute hvalue hne
    · obtain ⟨child, hfind, hcontent⟩ := Option.bind_eq_some_iff.mp h
      rw [Text.nonBlank?_eq_ite] at hcontent
      split at hcontent
      · cases hcontent
      · next hne =>
        cases hcontent
        obtain ⟨hname, before, after, hchildren, hfirst⟩ := List.find?_eq_some_iff_append.mp hfind
        refine .ofElement hblank hchildren (fun e he => ?_) (Style.matchesName_iff.mp hname).1 hne
        intro hname
        simpa [Style.matchesName, hname] using hfirst e he
  · intro h
    cases h with
    | ofAttribute hvalue hne => exact .inl ⟨_, hvalue, rfl, hne⟩
    | @ofElement before after child hblank hchildren hfirst hname hne =>
      have hfind : item.childElements.find? (Style.sdk.matchesName "Version") = some child := by
        refine List.find?_eq_some_iff_append.mpr ⟨?_, before, after, hchildren, fun e he => ?_⟩
        · exact Style.matchesName_iff.mpr ⟨hname, fun h => by cases h⟩
        · simpa [Style.matchesName] using hfirst e he
      refine .inr ⟨hblank, Option.bind_eq_some_iff.mpr ⟨child, hfind, ?_⟩⟩
      rw [Text.nonBlank?_eq_ite, if_neg hne]

theorem version?_eq_none_iff {item : Xml.Element} :
    version? item = none ↔ ∀ v, ¬ HasVersion item v := by
  simp only [← version?_eq_some_iff, Option.eq_none_iff_forall_ne_some, ne_eq]

theorem ofItem_eq_ok_iff {item : Xml.Element} {package : Package} :
    ofItem item = .ok package ↔ Names item package := by
  unfold ofItem
  constructor
  · intro h
    split at h
    · cases h
    · cases h
    · next name version hname hversion =>
      cases h
      obtain ⟨value, hvalue, htrim, hne⟩ := value?_eq_some_iff.mp hname
      exact ⟨⟨value, hvalue, htrim⟩, hne, version?_eq_some_iff.mp hversion⟩
  · rintro ⟨⟨value, hvalue, htrim⟩, hne, hversion⟩
    rw [value?_eq_some_iff.mpr ⟨value, hvalue, htrim, hne⟩, version?_eq_some_iff.mpr hversion]

theorem ofItem_eq_error_iff {item : Xml.Element} {name : Text} :
    ofItem item = .error name ↔ Lacks item name := by
  unfold ofItem
  constructor
  · intro h
    split at h
    · next hnone =>
      cases h
      exact .name (value?_eq_none_iff.mp hnone)
    · next hname hnone =>
      cases h
      refine .version (Markup.isSome_value?_iff.mp ?_) (version?_eq_none_iff.mp hnone)
      rw [hname]
      rfl
    · cases h
  · rintro (h | ⟨h, hnone⟩)
    · rw [value?_eq_none_iff.mpr h]
    · obtain ⟨v, hv⟩ := Option.isSome_iff_exists.mp (Markup.isSome_value?_iff.mpr h)
      rw [hv, version?_eq_none_iff.mpr hnone]

/-- An item names a package if there is a name in it and a version. -/
theorem exists_names_iff {item : Xml.Element} :
    (∃ package, Names item package) ↔ HasValue item "Include" ∧ ∃ v, HasVersion item v := by
  constructor
  · rintro ⟨package, ⟨value, hvalue, htrim⟩, hne, hversion⟩
    exact ⟨⟨value, hvalue, htrim ▸ hne⟩, package.version, hversion⟩
  · rintro ⟨⟨value, hvalue, hne⟩, v, hversion⟩
    exact ⟨⟨value.trim, v⟩, ⟨value, hvalue, rfl⟩, hne, hversion⟩

/-! Items one after another -/

/-- Whether an item is the first of some items to lack something, and what it lacks. -/
def FirstLacks (items : List Xml.Element) (item : Xml.Element) (name : Text) : Prop :=
  ∃ before, before ++ [item] <+: items ∧
    (∀ x ∈ before, IsActive x → ∃ package, Names x package) ∧ IsActive item ∧ Lacks item name

theorem not_firstLacks_nil {item : Xml.Element} {name : Text} : ¬ FirstLacks [] item name := by
  rintro ⟨before, hprefix, -⟩
  simpa using hprefix.length_le

theorem firstLacks_cons_iff {x item : Xml.Element} {items : List Xml.Element} {name : Text} :
    FirstLacks (x :: items) item name ↔ x = item ∧ IsActive x ∧ Lacks x name ∨
      (IsActive x → ∃ package, Names x package) ∧ FirstLacks items item name := by
  constructor
  · rintro ⟨before, hprefix, hbefore, hactive, hlacks⟩
    cases before with
    | nil =>
      obtain ⟨rfl, -⟩ := List.cons_prefix_cons.mp hprefix
      exact .inl ⟨rfl, hactive, hlacks⟩
    | cons y before =>
      rw [List.cons_append] at hprefix
      obtain ⟨rfl, htail⟩ := List.cons_prefix_cons.mp hprefix
      exact .inr ⟨hbefore _ (by simp), before, htail,
        fun z hz => hbefore z (List.mem_cons_of_mem _ hz), hactive, hlacks⟩
  · rintro (⟨rfl, hactive, hlacks⟩ | ⟨hx, before, hprefix, hbefore, hactive, hlacks⟩)
    · exact ⟨[], by simp, by simp, hactive, hlacks⟩
    · exact ⟨x :: before, List.cons_prefix_cons.mpr ⟨rfl, hprefix⟩,
        List.forall_mem_cons.mpr ⟨hx, hbefore⟩, hactive, hlacks⟩

theorem ofItems_eq_ok_iff {path : Path} {items : List Xml.Element} {packages : List Package} :
    ofItems path items = .ok packages ↔
      List.Forall₂ Names (items.filter fun item => IsActive item) packages := by
  induction items generalizing packages with
  | nil =>
    rw [ofItems, List.filter_nil, List.forall₂_nil_left_iff, Except.ok.injEq, eq_comm]
  | cons item items ih =>
    rw [ofItems]
    by_cases hactive : IsActive item
    · rw [if_pos (isActive_iff.mpr hactive), List.filter_cons_of_pos (by simpa using hactive),
        List.forall₂_cons_left_iff]
      cases hitem : ofItem item with
      | error name =>
        constructor
        · intro h
          cases h
        · rintro ⟨package, _, hnames, -⟩
          cases hitem.symm.trans (ofItem_eq_ok_iff.mpr hnames)
      | ok package =>
        simp only [Except.map_eq_ok_iff, ih]
        constructor
        · rintro ⟨rest, hrest, rfl⟩
          exact ⟨package, rest, ofItem_eq_ok_iff.mp hitem, hrest, rfl⟩
        · rintro ⟨package', rest, hnames, hrest, rfl⟩
          cases hitem.symm.trans (ofItem_eq_ok_iff.mpr hnames)
          exact ⟨rest, hrest, rfl⟩
    · rw [if_neg (mt isActive_iff.mp hactive), List.filter_cons_of_neg (by simpa using hactive), ih]

theorem ofItems_eq_error_iff {path : Path} {items : List Xml.Element} {e : ProjectError} :
    ofItems path items = .error e ↔
      ∃ item name, FirstLacks items item name ∧ e = missing path item name := by
  induction items with
  | nil => simp [ofItems, not_firstLacks_nil]
  | cons x items ih =>
    simp only [firstLacks_cons_iff]
    rw [ofItems]
    by_cases hactive : IsActive x
    · rw [if_pos (isActive_iff.mpr hactive)]
      cases hitem : ofItem x with
      | error lacking =>
        have hlacks := ofItem_eq_error_iff.mp hitem
        constructor
        · intro h
          exact ⟨x, lacking, .inl ⟨rfl, hactive, hlacks⟩, (Except.error.inj h).symm⟩
        · rintro ⟨item, name, ⟨rfl, -, hlacks⟩ | ⟨hnames, -⟩, rfl⟩
          · cases hitem.symm.trans (ofItem_eq_error_iff.mpr hlacks)
            rfl
          · obtain ⟨package, hnames⟩ := hnames hactive
            cases hitem.symm.trans (ofItem_eq_ok_iff.mpr hnames)
      | ok package =>
        have hnames := ofItem_eq_ok_iff.mp hitem
        simp only [Except.map_eq_error_iff, ih]
        constructor
        · rintro ⟨item, name, hfirst, rfl⟩
          exact ⟨item, name, .inr ⟨fun _ => ⟨package, hnames⟩, hfirst⟩, rfl⟩
        · rintro ⟨item, name, ⟨rfl, -, hlacks⟩ | ⟨-, hfirst⟩, rfl⟩
          · cases hitem.symm.trans (ofItem_eq_error_iff.mpr hlacks)
          · exact ⟨item, name, hfirst, rfl⟩
    · rw [if_neg (mt isActive_iff.mp hactive), ih]
      simp [hactive]

theorem name_of_mem_items {root item : Xml.Element}
    (h : item ∈ Style.sdk.items "PackageReference" root) : item.tag.name = "PackageReference" := by
  obtain ⟨group, -, hitem⟩ := List.mem_flatMap.mp h
  exact (Style.matchesName_iff.mp (List.mem_filter.mp hitem).2).1

theorem FirstLacks.mem {items : List Xml.Element} {item : Xml.Element} {name : Text}
    (h : FirstLacks items item name) : item ∈ items := by
  obtain ⟨before, hprefix, -⟩ := h
  exact hprefix.subset (by simp)

/-- What comes after the first item that lacks something does not matter. -/
theorem FirstLacks.of_prefix {seen items : List Xml.Element} {item : Xml.Element} {name : Text}
    (h : FirstLacks seen item name) (hseen : seen <+: items) : FirstLacks items item name := by
  obtain ⟨before, hprefix, h⟩ := h
  exact ⟨before, hprefix.trans hseen, h⟩

theorem extract_eq_error_iff {path : Path} {document : Xml.Document} {e : ProjectError} :
    extract path document = .error e ↔ ∃ item name,
      FirstLacks (Style.sdk.items "PackageReference" document.root) item name ∧
        e = .missingAttribute path "PackageReference" name item.tag.start := by
  rw [extract, ofItems_eq_error_iff]
  refine exists_congr fun item => exists_congr fun name => and_congr_right fun hfirst => ?_
  rw [missing, name_of_mem_items hfirst.mem]

/-- The packages of a document are known if every active item has a name and a version, and then
there is one for each of them, in their order. Otherwise the first active item that lacks one of the
two is the error, and what it lacks: the name if both. The items after it are not looked at, so
documents whose items are the same up to there end with the same error. -/
theorem extract_exact (path : Path) (document : Xml.Document) :
    let items := Style.sdk.items "PackageReference" document.root
    let active := items.filter fun item => IsActive item
    ((∃ packages, extract path document = .ok packages) ↔
      ∀ item ∈ active, HasValue item "Include" ∧ ∃ v, HasVersion item v) ∧
    (∀ packages, extract path document = .ok packages ↔ List.Forall₂ Names active packages) ∧
    (∀ e, extract path document = .error e ↔ ∃ item name, FirstLacks items item name ∧
      e = .missingAttribute path "PackageReference" name item.tag.start) ∧
    ∀ seen item name, FirstLacks seen item name → ∀ other : Xml.Document,
      seen <+: Style.sdk.items "PackageReference" other.root →
        extract path other = .error (.missingAttribute path "PackageReference" name
          item.tag.start) := by
  intro items active
  have hok (packages : List Package) :
      extract path document = .ok packages ↔ List.Forall₂ Names active packages :=
    ofItems_eq_ok_iff
  refine ⟨?_, hok, fun e => extract_eq_error_iff, fun seen item name hfirst other hseen => ?_⟩
  · simp only [hok, ← exists_names_iff]
    exact exists_forall₂_iff
  · exact extract_eq_error_iff.mpr ⟨item, name, hfirst.of_prefix hseen, rfl⟩

end Packages

end ProjectFile
