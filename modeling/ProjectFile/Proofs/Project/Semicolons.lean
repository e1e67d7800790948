import ProjectFile.Proofs.Project.Asides
import ProjectFile.Proofs.Xml.Replacement

/-!
A semicolon in a value stands for one element more. A `Compile` item with two parts in its `Include`
tells the same as two items with one part each, at whatever depth it stands, and so do two framework
elements that stand next to each other in a property group directly in the project. The parts may be
blank, have white space around them or hold semicolons of their own.
-/

namespace ProjectFile

open Xml (Document Element Node Replaced Tag)

theorem flatMap_filter {α γ : Type} (p : α → Bool) (f : α → List γ) (as : List α) :
    (as.filter p).flatMap f = as.flatMap fun a => if p a then f a else [] := by
  induction as with
  | nil => rfl
  | cons a as ih =>
    cases hp : p a with
    | true => rw [List.filter_cons_of_pos hp, List.flatMap_cons, List.flatMap_cons, if_pos hp, ih]
    | false => simp [hp, ih]

theorem eq_append_of_nil {α γ : Type} {x y z : α} {f : α → List γ}
    (h : ∀ e ∈ [x, y, z], f e = []) : f x = f y ++ f z := by
  rw [h x (by simp), h y (by simp), h z (by simp), List.append_nil]

namespace Style

/-- What the children of an element tell if it is an item group. -/
def inGroup {γ : Type} (s : Style) (tells : Element → List γ) (group : Element) : List γ :=
  if s.matchesName "ItemGroup" group then group.childElements.flatMap tells else []

/-- What the children of item groups tell, one group after another. -/
def gathered {γ : Type} (s : Style) (tells : Element → List γ) (root : Element) : List γ :=
  root.elements.flatMap (s.inGroup tells)

theorem flatMap_items {γ : Type} (s : Style) (kind : Text) (root : Element)
    (tells : Element → List γ) : (s.items kind root).flatMap tells =
      s.gathered (fun e => if s.matchesName kind e then tells e else []) root := by
  rw [items, List.flatMap_assoc, flatMap_filter]
  simp only [flatMap_filter]
  rfl

end Style

namespace Markup

/-- The sources that an element lists if it stands in an item group. -/
def sourcesIn (s : Style) (directory : Path) (e : Element) : List Path :=
  if s.matchesName "Compile" e then
    match e.tag.attribute? "Include" with
    | some value => (Text.pieces ';' value).map directory.resolveInclude
    | none => []
  else []

/-- The reference that an element is if it stands in an item group. -/
def referencesIn (s : Style) (e : Element) : List Text :=
  if s.matchesName "Reference" e then (value? e "Include").toList else []

/-- The frameworks that an element names if it stands in a property group. -/
def frameworksIn (e : Element) : List Text :=
  if Style.sdk.matchesName "TargetFramework" e || Style.sdk.matchesName "TargetFrameworks" e then
    Text.pieces ';' e.content
  else []

/-- The frameworks that the elements in an element name if it is a property group. -/
def frameworksBelow (group : Element) : List Text :=
  if Style.sdk.matchesName "PropertyGroup" group then group.descendants.flatMap frameworksIn else []

theorem listedSources_eq_gathered (s : Style) (root : Element) (directory : Path) :
    listedSources s root directory = s.gathered (sourcesIn s directory) root :=
  s.flatMap_items "Compile" root _

theorem referencesOf_eq_gathered (s : Style) (root : Element) :
    referencesOf s root = s.gathered (referencesIn s) root := by
  rw [referencesOf, List.filterMap_eq_flatMap_toList, s.flatMap_items]
  rfl

theorem frameworksOf_eq_below (root : Element) :
    frameworksOf root = root.childElements.flatMap frameworksBelow := by
  rw [frameworksOf, flatMap_filter, Style.properties, List.flatMap_assoc, flatMap_filter]
  rfl

theorem sdk?_eq_head? (root : Element) : sdk? root =
    (value? root "Sdk").or (root.childElements.flatMap fun e => (childSdk? e).toList).head? := by
  rw [sdk?, ← List.filterMap_eq_flatMap_toList, List.head?_filterMap]

/-- Projects tell the same if they declare the same SDK and their lists are the same. -/
theorem extract_congr {a b : Document} (hsdk : sdk? a.root = sdk? b.root)
    (hsources : ∀ s directory, listedSources s a.root directory = listedSources s b.root directory)
    (hreferences : referencesOf .legacy a.root = referencesOf .legacy b.root)
    (hframeworks : frameworksOf a.root = frameworksOf b.root) (storage : Storage)
    (settings : Settings) (path : Path) :
    extract storage settings path a = extract storage settings path b := by
  simp only [extract, hsdk, hsources, hreferences, hframeworks]

end Markup

/-- Whether an element tells what two others tell together, whatever a project looks for. The tags
are those between the root and the element. -/
structure TellsTogether (x y z : Element) (above : List Tag) : Prop where
  leaf : ∀ e ∈ [x, y, z], e.childElements = []
  sdk : ∀ e ∈ [x, y, z], Markup.childSdk? e = none
  sources : ∀ s directory, Markup.sourcesIn s directory x =
    Markup.sourcesIn s directory y ++ Markup.sourcesIn s directory z
  references : ∀ s, Markup.referencesIn s x = Markup.referencesIn s y ++ Markup.referencesIn s z
  frameworks : Markup.frameworksIn x = Markup.frameworksIn y ++ Markup.frameworksIn z
  content : above.tail = [] ∨ x.content = y.content ++ z.content

section

variable {x y z : Element} {above : List Tag} {ns ms : List Node}
  (h : Replaced x y z above ns ms) (tag : Tag)

include h

/-- What the children of item groups tell stays the same when two take the place of one that tells
what they tell together. -/
theorem Style.gathered_eq_of_replaced {γ : Type} (s : Style) {tells : Element → List γ}
    (hleaf : ∀ e ∈ [x, y, z], e.childElements = []) (htells : tells x = tells y ++ tells z)
    (htag : ∀ tag c c', tells ⟨tag, c⟩ = tells ⟨tag, c'⟩) :
    s.gathered tells ⟨tag, ns⟩ = s.gathered tells ⟨tag, ms⟩ := by
  have hempty (e : Element) (he : e ∈ [x, y, z]) : s.inGroup tells e = [] := by
    rw [inGroup, hleaf e he]
    exact ite_self _
  -- the root and the elements around the replacement gather from their children alone
  have hgroup : ∀ tag above c c', Replaced x y z above c c' →
      s.inGroup tells ⟨tag, c⟩ = s.inGroup tells ⟨tag, c'⟩ := by
    intro tag above c c' hc
    have hchildren : (c.filterMap Node.element?).flatMap tells =
        (c'.filterMap Node.element?).flatMap tells :=
      hc.flatMap_children htells fun tag _ c c' _ _ => htag tag c c'
    exact congrArg (fun told => if s.matchesName "ItemGroup" ⟨tag, c⟩ then told else []) hchildren
  rw [gathered, gathered, Element.elements, Element.elements, List.flatMap_cons, List.flatMap_cons,
    hgroup tag above ns ms h]
  exact congrArg (s.inGroup tells ⟨tag, ms⟩ ++ ·)
    (h.flatMap_elements (eq_append_of_nil hempty) hleaf (.inr hgroup))

namespace TellsTogether

variable (ht : TellsTogether x y z above)

include ht

theorem sdk?_eq : Markup.sdk? ⟨tag, ns⟩ = Markup.sdk? ⟨tag, ms⟩ := by
  have hchildren : (ns.filterMap Node.element?).flatMap (fun e => (Markup.childSdk? e).toList) =
      (ms.filterMap Node.element?).flatMap fun e => (Markup.childSdk? e).toList := by
    apply h.flatMap_children
    · refine eq_append_of_nil (f := fun e => (Markup.childSdk? e).toList) fun e he => ?_
      rw [ht.sdk e he, Option.toList_none]
    · intro tag above c c' _ _
      rfl
  rw [Markup.sdk?_eq_head?, Markup.sdk?_eq_head?]
  exact congrArg (fun declared => (Markup.value? ⟨tag, ns⟩ "Sdk").or declared.head?) hchildren

theorem listedSources_eq (s : Style) (directory : Path) :
    Markup.listedSources s ⟨tag, ns⟩ directory = Markup.listedSources s ⟨tag, ms⟩ directory := by
  rw [Markup.listedSources_eq_gathered, Markup.listedSources_eq_gathered]
  exact s.gathered_eq_of_replaced h tag ht.leaf (ht.sources s directory) fun _ _ _ => rfl

theorem referencesOf_eq (s : Style) :
    Markup.referencesOf s ⟨tag, ns⟩ = Markup.referencesOf s ⟨tag, ms⟩ := by
  rw [Markup.referencesOf_eq_gathered, Markup.referencesOf_eq_gathered]
  exact s.gathered_eq_of_replaced h tag ht.leaf (ht.references s) fun _ _ _ => rfl

theorem frameworksOf_eq : Markup.frameworksOf ⟨tag, ns⟩ = Markup.frameworksOf ⟨tag, ms⟩ := by
  have hempty (e : Element) (he : e ∈ [x, y, z]) : Markup.frameworksBelow e = [] := by
    rw [Markup.frameworksBelow, Element.descendants, Node.elementsOf_eq_flatMap,
      ← Element.childElements, ht.leaf e he]
    exact ite_self _
  rw [Markup.frameworksOf_eq_below, Markup.frameworksOf_eq_below]
  apply h.flatMap_children
  · exact eq_append_of_nil hempty
  · rintro group above' c c' rfl hc
    have hbelow : (Node.elementsOf c).flatMap Markup.frameworksIn =
        (Node.elementsOf c').flatMap Markup.frameworksIn := by
      apply hc.flatMap_elements ht.frameworks ht.leaf
      -- an element between the group and the replacement may name frameworks by the text in it
      rcases ht.content with htail | hcontent
      · exact .inl htail
      · right
        intro tag _ c c' hc
        unfold Markup.frameworksIn
        simp only [Element.content, hc.contentOf_eq hcontent]
        rfl
    exact congrArg
      (fun told => if Style.sdk.matchesName "PropertyGroup" ⟨group, c⟩ then told else []) hbelow

end TellsTogether

end

/-- Whether an element has two parts with a semicolon between them, and two others of its kind have
one part each: a `Compile` item anywhere, or a framework element in a group directly in the project.
The tags are those between the root and the element. -/
inductive Divided (x y z : Element) : List Tag → Prop
  | item {s t : Text} (above : List Tag)
      (hitems : ∀ e ∈ [x, y, z],
        e.children = [] ∧ e.tag.name = "Compile" ∧ e.tag.space? = x.tag.space?)
      (hwhole : x.tag.attribute? "Include" = some (s ++ ';' :: t))
      (hfirst : y.tag.attribute? "Include" = some s)
      (hsecond : z.tag.attribute? "Include" = some t) : Divided x y z above
  | frameworks (group : Tag)
      (helements : ∀ e ∈ [x, y, z], e.childElements = [] ∧
        (e.tag.name = "TargetFramework" ∨ e.tag.name = "TargetFrameworks"))
      (hcontent : x.content = y.content ++ ';' :: z.content) : Divided x y z [group]

namespace Markup

variable {e : Element}

theorem childSdk?_eq_none (hsdk : e.tag.name ≠ "Sdk") (himport : e.tag.name ≠ "Import") :
    childSdk? e = none := by
  rw [childSdk?, if_neg hsdk, if_neg himport]

theorem sourcesIn_eq_nil (h : e.tag.name ≠ "Compile") (s : Style) (directory : Path) :
    sourcesIn s directory e = [] := by
  rw [sourcesIn, Style.matchesName_of_ne h]
  rfl

theorem referencesIn_eq_nil (h : e.tag.name ≠ "Reference") (s : Style) :
    referencesIn s e = [] := by
  rw [referencesIn, Style.matchesName_of_ne h]
  rfl

theorem frameworksIn_eq_nil (hone : e.tag.name ≠ "TargetFramework")
    (hmany : e.tag.name ≠ "TargetFrameworks") : frameworksIn e = [] := by
  rw [frameworksIn, Style.matchesName_of_ne hone, Style.matchesName_of_ne hmany]
  rfl

theorem frameworksIn_eq_pieces
    (h : e.tag.name = "TargetFramework" ∨ e.tag.name = "TargetFrameworks") :
    frameworksIn e = Text.pieces ';' e.content := by
  apply if_pos
  rcases h with h | h <;> simp [Style.matchesName, h]

end Markup

namespace Divided

variable {x y z : Element} {above : List Tag}

/-- What is divided by a semicolon tells what its parts tell. -/
theorem tellsTogether (h : Divided x y z above) : TellsTogether x y z above := by
  cases h with
  | @item s t above hitems hwhole hfirst hsecond =>
    have hname (e : Element) (he : e ∈ [x, y, z]) {name : Text} (hne : ("Compile" : Text) ≠ name) :
        e.tag.name ≠ name := (hitems e he).2.1.trans_ne hne
    have hcontent (e : Element) (he : e ∈ [x, y, z]) : e.content = [] := by
      rw [Element.content, (hitems e he).1, Node.contentOf]
    have hmatch (s : Style) (e : Element) (he : e ∈ [x, y, z]) :
        s.matchesName "Compile" e = s.matchesName "Compile" x := by
      unfold Style.matchesName
      rw [(hitems e he).2.1, (hitems e he).2.2, (hitems x (by simp)).2.1]
    constructor
    case leaf =>
      intro e he
      rw [Element.childElements, (hitems e he).1, List.filterMap_nil]
    case sdk =>
      intro e he
      exact Markup.childSdk?_eq_none (hname e he (by decide)) (hname e he (by decide))
    case sources =>
      intro s directory
      unfold Markup.sourcesIn
      rw [hmatch s y (by simp), hmatch s z (by simp), hwhole, hfirst, hsecond]
      split
      · dsimp only
        rw [Text.pieces_append, List.map_append]
      · rfl
    case references =>
      intro s
      exact eq_append_of_nil fun e he => Markup.referencesIn_eq_nil (hname e he (by decide)) s
    case frameworks =>
      exact eq_append_of_nil fun e he =>
        Markup.frameworksIn_eq_nil (hname e he (by decide)) (hname e he (by decide))
    case content => exact .inr (eq_append_of_nil hcontent)
  | frameworks group helements hcontent =>
    have hname (e : Element) (he : e ∈ [x, y, z]) {name : Text}
        (hone : ("TargetFramework" : Text) ≠ name) (hmany : ("TargetFrameworks" : Text) ≠ name) :
        e.tag.name ≠ name :=
      (helements e he).2.elim (fun h => h.trans_ne hone) fun h => h.trans_ne hmany
    constructor
    case leaf => exact fun e he => (helements e he).1
    case sdk =>
      intro e he
      apply Markup.childSdk?_eq_none <;> exact hname e he (by decide) (by decide)
    case sources =>
      intro s directory
      exact eq_append_of_nil fun e he =>
        Markup.sourcesIn_eq_nil (hname e he (by decide) (by decide)) s directory
    case references =>
      intro s
      exact eq_append_of_nil fun e he =>
        Markup.referencesIn_eq_nil (hname e he (by decide) (by decide)) s
    case frameworks =>
      have hframeworks (e : Element) (he : e ∈ [x, y, z]) :
          Markup.frameworksIn e = Text.pieces ';' e.content :=
        Markup.frameworksIn_eq_pieces (helements e he).2
      rw [hframeworks x (by simp), hframeworks y (by simp), hframeworks z (by simp), hcontent,
        Text.pieces_append]
    case content => exact .inl rfl

end Divided

/-- A project tells the same when two adjacent elements stand for one that a semicolon divides, in
either dialect and with whatever its directory holds. -/
theorem extract_divided {x y z : Element} {above : List Tag} {a b : Document}
    (hdivided : Divided x y z above) (hreplaces : Document.Replaces x y z above a b)
    (storage : Storage) (settings : Settings) (path : Path) :
    Markup.extract storage settings path a = Markup.extract storage settings path b := by
  obtain ⟨children, hreplaced, hviewed⟩ := hreplaces
  have ht := hdivided.tellsTogether
  have halike := Document.alike_of_viewed_eq Tag.placeless (fun _ => rfl) hviewed
  have hshown (s : Style) := s.shownBy_placeless
  calc Markup.extract storage settings path a
    _ = Markup.extract storage settings path ⟨⟨a.root.tag, children⟩⟩ :=
      Markup.extract_congr (ht.sdk?_eq hreplaced a.root.tag)
        (ht.listedSources_eq hreplaced a.root.tag) (ht.referencesOf_eq hreplaced a.root.tag .legacy)
        (ht.frameworksOf_eq hreplaced a.root.tag) storage settings path
    _ = Markup.extract storage settings path b :=
      Markup.extract_congr ((hshown .sdk).sdk?_eq halike)
        (fun s directory => (hshown s).listedSources_eq halike directory)
        ((hshown .legacy).referencesOf_eq halike) ((hshown .sdk).frameworksOf_eq halike) storage
        settings path

/-- An element with a text in a property group. -/
def property (name content : Text) (place : Xml.Position) : Element :=
  ⟨⟨name, none, [], place⟩, [.text content]⟩

/-- A `Compile` item without content. -/
def compileItem (value : Text) (place : Xml.Position) : Element :=
  ⟨⟨"Compile", none, [⟨none, "Include", value⟩], place⟩, []⟩

/-- An SDK project with elements in a property group, and others in an item group that stands in the
branch of a choice. -/
def choiceProject (properties items : List Element) : Document where
  root := ⟨⟨"Project", none, [⟨none, "Sdk", "S"⟩], .start⟩, [
    .element ⟨"PropertyGroup", none, [], ⟨2, 3⟩⟩ (properties.map Element.node),
    .element ⟨"Choose", none, [], ⟨5, 3⟩⟩ [
      .element ⟨"When", none, [], ⟨5, 11⟩⟩ [
        .element ⟨"ItemGroup", none, [], ⟨6, 3⟩⟩ (items.map Element.node)]]]⟩

/-- First the frameworks of a project are divided and then an item, which moves on by that. -/
theorem extract_divided_choice :
    let whole := property "TargetFrameworks" " net8.0; ;net9.0" ⟨2, 18⟩
    let first := property "TargetFrameworks" " net8.0" ⟨2, 18⟩
    let second := property "TargetFramework" " ;net9.0" ⟨2, 61⟩
    let item := compileItem "A.cs;B.cs ;" ⟨6, 14⟩
    let moved := compileItem "A.cs;B.cs ;" ⟨6, 20⟩
    let a := choiceProject [whole] [item]
    let b := choiceProject [first, second] [moved]
    let c := choiceProject [first, second] [compileItem "A.cs" ⟨6, 20⟩, compileItem "B.cs ;" ⟨7, 3⟩]
    (∀ storage settings path,
      Markup.extract storage settings path a = Markup.extract storage settings path b ∧
      Markup.extract storage settings path b = Markup.extract storage settings path c) ∧
    Markup.frameworksOf c.root = [("net8.0" : Text), "net9.0"] ∧
      Markup.listedSources .sdk c.root ⟨"/p"⟩ = [⟨"/p/A.cs"⟩, ⟨"/p/B.cs"⟩] := by
  intro whole first second item moved a b c
  have hframeworks : Divided whole first second [⟨"PropertyGroup", none, [], ⟨2, 3⟩⟩] :=
    .frameworks _ (by decide) (by decide)
  have hitem (above : List Tag) :
      Divided moved (compileItem "A.cs" ⟨6, 20⟩) (compileItem "B.cs ;" ⟨7, 3⟩) above :=
    .item above (by decide) rfl rfl rfl
  have hb : a.Replaces whole first second [_] b := ⟨_, .inside (.here [] []) _ [] _, rfl⟩
  have hc : b.Replaces moved _ _ _ c :=
    ⟨_, .inside (.inside (.inside (.here [] []) _ [] []) _ [] []) _ [_] [], rfl⟩
  exact ⟨fun storage settings path => ⟨extract_divided hframeworks hb storage settings path,
    extract_divided (hitem _) hc storage settings path⟩, by decide +kernel, by decide +kernel⟩

end ProjectFile
