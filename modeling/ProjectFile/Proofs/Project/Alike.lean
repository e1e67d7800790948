import ProjectFile.Project.Packages
import ProjectFile.Proofs.Xml.Outline

/-!
Projects whose root elements are alike. If the tags show what a dialect looks at, the items, the
properties and the declared SDK are alike one by one, and so the lists that are read from them are
the same. Of packages the same item is the first one that lacks something.
-/

namespace ProjectFile

open Xml (Element Tag)

/-- Whether a view of tags shows all that a dialect looks at. -/
structure Style.ShownBy (s : Style) (view : Tag → Tag) : Prop where
  name : ∀ t, (view t).name = t.name
  attributes : ∀ t, (view t).attributes = t.attributes
  space? : s = .legacy → ∀ t, (view t).space? = t.space?

section

variable {s : Style} {view : Tag → Tag} (hs : s.ShownBy view) {e e' : Element}
  (h : e.Alike view e')

include hs h

theorem Style.ShownBy.name_eq : e.tag.name = e'.tag.name := by
  rw [← hs.name, h.tag, hs.name]

theorem Style.ShownBy.attribute?_eq (name : Text) :
    e.tag.attribute? name = e'.tag.attribute? name := by
  rw [Tag.attribute?, Tag.attribute?, ← hs.attributes e.tag, h.tag, hs.attributes]

theorem Style.ShownBy.hasAttribute_eq (name : Text) :
    e.tag.hasAttribute name = e'.tag.hasAttribute name := by
  rw [Tag.hasAttribute, Tag.hasAttribute, hs.attribute?_eq h]

theorem Style.ShownBy.value?_eq (name : Text) : Markup.value? e name = Markup.value? e' name := by
  rw [Markup.value?, Markup.value?, hs.attribute?_eq h]

theorem Style.ShownBy.matchesName_eq (name : Text) :
    s.matchesName name e = s.matchesName name e' := by
  unfold matchesName
  rw [hs.name_eq h]
  cases s with
  | sdk => rfl
  | legacy =>
    have hspace := hs.space? rfl
    rw [← hspace e.tag, h.tag, hspace]

end

section

variable {α β γ : Type} {R : α → β → Prop} {xs : List α} {ys : List β} (h : List.Forall₂ R xs ys)

include h

theorem flatMap_eq_of_forall₂ {f : α → List γ} {g : β → List γ} (hfg : ∀ a b, R a b → f a = g b) :
    xs.flatMap f = ys.flatMap g := by
  induction h with
  | nil => rfl
  | cons hab _ ih => rw [List.flatMap_cons, List.flatMap_cons, hfg _ _ hab, ih]

theorem filterMap_eq_of_forall₂ {f : α → Option γ} {g : β → Option γ}
    (hfg : ∀ a b, R a b → f a = g b) : xs.filterMap f = ys.filterMap g := by
  induction h with
  | nil => rfl
  | cons hab _ ih => rw [List.filterMap_cons, List.filterMap_cons, hfg _ _ hab, ih]

theorem findSome?_eq_of_forall₂ {f : α → Option γ} {g : β → Option γ}
    (hfg : ∀ a b, R a b → f a = g b) : xs.findSome? f = ys.findSome? g := by
  induction h with
  | nil => rfl
  | cons hab _ ih => rw [List.findSome?_cons, List.findSome?_cons, hfg _ _ hab, ih]

theorem find?_bind_eq_of_forall₂ {p : α → Bool} {q : β → Bool} {f : α → Option γ}
    {g : β → Option γ} (hpq : ∀ a b, R a b → p a = q b) (hfg : ∀ a b, R a b → f a = g b) :
    (xs.find? p).bind f = (ys.find? q).bind g := by
  induction h with
  | nil => rfl
  | cons hab _ ih =>
    rw [List.find?_cons, List.find?_cons, hpq _ _ hab]
    split
    · exact hfg _ _ hab
    · exact ih

end

section

variable {s : Style} {view : Tag → Tag} (hs : s.ShownBy view) {root root' : Element}
  (h : root.Alike view root')

include hs h

/-- The items are alike one by one. -/
theorem Style.ShownBy.items (kind : Text) :
    List.Forall₂ (Element.Alike view) (s.items kind root) (s.items kind root') := by
  have hmatch (name : Text) {e e' : Element} (he : e.Alike view e') :
      s.matchesName name e = true ↔ s.matchesName name e' = true := by
    rw [hs.matchesName_eq he]
  exact List.rel_flatMap (List.rel_filter (fun _ _ he => hmatch "ItemGroup" he) h.elements)
    fun _ _ hgroup => List.rel_filter (fun _ _ he => hmatch kind he) hgroup.childElements

theorem Style.ShownBy.properties :
    List.Forall₂ (Element.Alike view) (s.properties root) (s.properties root') := by
  have hmatch {e e' : Element} (he : e.Alike view e') :
      s.matchesName "PropertyGroup" e = true ↔ s.matchesName "PropertyGroup" e' = true := by
    rw [hs.matchesName_eq he]
  exact List.rel_flatMap (List.rel_filter (fun _ _ he => hmatch he) h.childElements)
    fun _ _ hgroup => hgroup.descendants

theorem Style.ShownBy.listedSources_eq (directory : Path) :
    Markup.listedSources s root directory = Markup.listedSources s root' directory := by
  refine flatMap_eq_of_forall₂ (hs.items h "Compile") fun e e' he => ?_
  rw [hs.attribute?_eq he]

theorem Style.ShownBy.referencesOf_eq : Markup.referencesOf s root = Markup.referencesOf s root' :=
  filterMap_eq_of_forall₂ (hs.items h "Reference") fun _ _ he => hs.value?_eq he "Include"

end

section

variable {view : Tag → Tag} (hsdk : Style.sdk.ShownBy view) {root root' : Element}
  (h : root.Alike view root')

include hsdk h

theorem Style.ShownBy.frameworksOf_eq : Markup.frameworksOf root = Markup.frameworksOf root' := by
  refine flatMap_eq_of_forall₂ (R := Element.Alike view) (List.rel_filter ?_ (hsdk.properties h)) ?_
  · intro e e' he
    simp only [hsdk.matchesName_eq he]
  · intro e e' he
    rw [he.content]

theorem Style.ShownBy.sdk?_eq : Markup.sdk? root = Markup.sdk? root' := by
  unfold Markup.sdk?
  rw [hsdk.value?_eq h]
  refine congrArg _ (findSome?_eq_of_forall₂ h.childElements fun e e' he => ?_)
  unfold Markup.childSdk?
  rw [hsdk.name_eq he, hsdk.value?_eq he, hsdk.value?_eq he]

end

namespace Packages

variable {view : Tag → Tag} (hsdk : Style.sdk.ShownBy view) {item item' : Element}
  {items items' : List Element}

include hsdk

theorem isActive_eq (h : item.Alike view item') : isActive item = isActive item' := by
  unfold isActive
  simp only [hsdk.hasAttribute_eq h]

theorem ofItem_eq (h : item.Alike view item') : ofItem item = ofItem item' := by
  have hversion : version? item = version? item' := by
    unfold version?
    rw [hsdk.value?_eq h]
    refine congrArg _ (find?_bind_eq_of_forall₂ h.childElements ?_ ?_)
    · exact fun _ _ he => hsdk.matchesName_eq he _
    · intro e e' he
      rw [he.content]
  unfold ofItem
  rw [hsdk.value?_eq h, hversion]

/-- Of items that are alike one by one the same packages are read, or the same item is the first one
that lacks something, and it lacks the same. -/
theorem ofItems_cases (h : List.Forall₂ (Element.Alike view) items items') (path : Path) :
    (∃ packages, ofItems path items = .ok packages ∧ ofItems path items' = .ok packages) ∨
    ∃ (n : Nat) (item item' : Element) (name : Text), items[n]? = some item ∧
      items'[n]? = some item' ∧ item.tag.name = item'.tag.name ∧
      ofItems path items = .error (missing path item name) ∧
      ofItems path items' = .error (missing path item' name) := by
  induction h with
  | nil => exact .inl ⟨[], rfl, rfl⟩
  | @cons item item' items items' he _ ih =>
    rw [ofItems, ofItems, isActive_eq hsdk he, ofItem_eq hsdk he]
    split
    · split
      · rcases ih with ⟨packages, hok, hok'⟩ | ⟨n, x, x', name, hx, hx', hname, herror, herror'⟩
        · exact .inl ⟨_, by rw [hok]; rfl, by rw [hok']; rfl⟩
        · exact .inr ⟨n + 1, x, x', name, hx, hx', hname, by rw [herror]; rfl, by rw [herror']; rfl⟩
      · next name _ => exact .inr ⟨0, _, _, name, rfl, rfl, hsdk.name_eq he, rfl, rfl⟩
    · rcases ih with ih | ⟨n, x, x', name, hx, hx', hname, herror, herror'⟩
      · exact .inl ih
      · exact .inr ⟨n + 1, x, x', name, hx, hx', hname, herror, herror'⟩

end Packages

end ProjectFile
