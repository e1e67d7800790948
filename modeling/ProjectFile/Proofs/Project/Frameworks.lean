import ProjectFile.Project.Markup
import ProjectFile.Proofs.Project.Membership
import ProjectFile.Storage.Memory

/-!
The properties of a project and the target frameworks among them. A property is whatever element
stands below a property group that is directly in the project, be it in another group there; a group
that stands deeper, as in a target or a choice, gives no properties by itself. The frameworks are
the pieces of the text in the elements of two names, comments and instructions left out.
-/

namespace ProjectFile

namespace Xml

mutual

/-- A node and the nodes in it, in document order. -/
def Node.all : Node → List Node
  | .element tag children => .element tag children :: Node.allOf children
  | n => [n]

/-- The nodes and those in them, in document order. -/
def Node.allOf : List Node → List Node
  | [] => []
  | n :: rest => n.all ++ Node.allOf rest

end

/-- The text of a node that is a text, and of no other. -/
def Node.text? : Node → Option Text
  | .text content => some content
  | _ => none

mutual

theorem Node.content_eq : (n : Node) → n.content = (n.all.filterMap text?).flatten
  | .element tag children => by
    rw [content, all, List.filterMap_cons_none rfl, Node.contentOf_eq children]
  | .text content => by simp [Node.content, all, text?]
  | .comment _ => rfl
  | .instruction _ _ => rfl

theorem Node.contentOf_eq : (ns : List Node) → contentOf ns = ((allOf ns).filterMap text?).flatten
  | [] => rfl
  | n :: rest => by
    rw [contentOf, allOf, List.filterMap_append, List.flatten_append, Node.content_eq n,
      Node.contentOf_eq rest]

end

/-- The texts among all nodes in an element, in document order. -/
def Element.texts (e : Element) : List Text := (Node.allOf e.children).filterMap Node.text?

theorem Element.content_eq (e : Element) : e.content = e.texts.flatten :=
  Node.contentOf_eq e.children

end Xml

namespace Style

variable {s : Style} {root : Xml.Element}

/-- Whether an element has its place below a property group that is directly in the project. In the
legacy dialect the group is in its namespace. -/
def HasProperty (s : Style) (root : Xml.Element) (place : Xml.Place) (x : Xml.Element) : Prop :=
  ∃ n below group, place = n :: below ∧ below ≠ [] ∧ root.child? n = some group ∧
    group.tag.name = "PropertyGroup" ∧
    (s = .legacy → group.tag.space? = some legacyNamespace) ∧ group.at? below = some x

/-- Whether a list has the properties of a project, each place once and in document order. -/
structure EnumeratesProperties (s : Style) (root : Xml.Element)
    (properties : List (Xml.Place × Xml.Element)) : Prop where
  mem_iff : ∀ place x, (place, x) ∈ properties ↔ s.HasProperty root place x
  ordered : properties.Pairwise fun x y => x.1 < y.1

theorem HasProperty.at? {place : Xml.Place} {x : Xml.Element} (h : s.HasProperty root place x) :
    root.at? place = some x := by
  obtain ⟨n, below, group, rfl, -, hgroup, -, -, hx⟩ := h
  exact Xml.Element.at?_cons_eq_some_iff.mpr ⟨group, hgroup, hx⟩

def placedProperties (s : Style) (root : Xml.Element) : List (Xml.Place × Xml.Element) :=
  (root.placedChildren.filter fun x => s.matchesName "PropertyGroup" x.2).flatMap fun group =>
    (Xml.Node.placesFrom 0 group.2.children).map fun x => (group.1 :: x.1, x.2)

theorem mem_placedProperties {place : Xml.Place} {x : Xml.Element} :
    (place, x) ∈ s.placedProperties root ↔ s.HasProperty root place x := by
  simp only [placedProperties, List.mem_flatMap, List.mem_map, List.mem_filter, matchesName_iff]
  constructor
  · rintro ⟨⟨n, group⟩, ⟨hgroup, hname, hspace⟩, ⟨below, x⟩, hx, ⟨rfl, rfl⟩⟩
    obtain ⟨hne, hx⟩ := Xml.Element.mem_placesFrom_children.mp hx
    exact ⟨n, below, group, rfl, hne, Xml.Element.mem_placedChildren.mp hgroup, hname, hspace, hx⟩
  · rintro ⟨n, below, group, rfl, hne, hgroup, hname, hspace, hx⟩
    exact ⟨(n, group), ⟨Xml.Element.mem_placedChildren.mpr hgroup, hname, hspace⟩, (below, x),
      Xml.Element.mem_placesFrom_children.mpr ⟨hne, hx⟩, rfl⟩

/-- The properties of one group come before those of the next, and in a group in document order. -/
theorem pairwise_placedProperties : (s.placedProperties root).Pairwise fun x y => x.1 < y.1 := by
  refine List.pairwise_flatMap.mpr ⟨fun group _ => ?_, ?_⟩
  · refine List.pairwise_map.mpr ((Xml.Node.pairwise_placesFrom 0 group.2.children).imp fun h => ?_)
    exact List.cons_lt_cons_iff.mpr (.inr ⟨rfl, h⟩)
  · refine (root.pairwise_placedChildren.filter _).imp fun h x hx y hy => ?_
    obtain ⟨_, -, rfl⟩ := List.mem_map.mp hx
    obtain ⟨_, -, rfl⟩ := List.mem_map.mp hy
    exact List.cons_lt_cons_iff.mpr (.inl h)

theorem enumerates_placedProperties (s : Style) (root : Xml.Element) :
    s.EnumeratesProperties root (s.placedProperties root) :=
  ⟨fun _ _ => mem_placedProperties, pairwise_placedProperties⟩

/-- Without their places the properties are those that the project is asked for. -/
theorem map_snd_placedProperties (s : Style) (root : Xml.Element) :
    (s.placedProperties root).map Prod.snd = s.properties root := by
  rw [placedProperties, properties, ← root.map_snd_placedChildren, List.filter_map,
    List.map_flatMap, List.flatMap_map]
  congr 1
  funext group
  rw [List.map_map]
  exact Xml.Node.map_snd_placesFrom 0 group.2.children

theorem mem_elements_of_mem_properties {x : Xml.Element} (h : x ∈ s.properties root) :
    x ∈ root.elements := by
  rw [← map_snd_placedProperties] at h
  obtain ⟨⟨place, x⟩, hplaced, rfl⟩ := List.mem_map.mp h
  exact Xml.Element.mem_elements_iff.mpr ⟨place, (mem_placedProperties.mp hplaced).at?⟩

/-- In a parsed document the properties come in the order in which they start. -/
theorem pairwise_start_properties {text : Text} {document : Xml.Document}
    (h : Xml.Document.parse text = .ok document) (s : Style) :
    (s.properties document.root).Pairwise fun x y => x.tag.start < y.tag.start := by
  rw [← map_snd_placedProperties, List.pairwise_map]
  refine pairwise_placedProperties.imp_of_mem fun hx hy hlt => ?_
  exact (Xml.Document.start_lt_iff h (mem_placedProperties.mp hx).at?
    (mem_placedProperties.mp hy).at?).mpr hlt

/-- What is in a child of the root that is no property group is no property, however many groups
it may be in. -/
theorem not_hasProperty {n : Nat}
    (h : ∀ group, root.child? n = some group → s.matchesName "PropertyGroup" group = false)
    (below : Xml.Place) (x : Xml.Element) : ¬ s.HasProperty root (n :: below) x := by
  rintro ⟨_, _, group, heq, -, hgroup, hname, hspace, -⟩
  obtain ⟨rfl, rfl⟩ := List.cons.inj heq
  have hmatch := matchesName_iff.mpr ⟨hname, hspace⟩
  rw [h group hgroup] at hmatch
  cases hmatch

end Style

namespace Markup

/-- The parts between the semicolons of the text in an element, trimmed, without those of which
nothing is left. -/
def textPieces (e : Xml.Element) : List Text :=
  ((Text.splitOn ';' e.texts.flatten).map Text.trim).filter (· ≠ [])

theorem frameworksOf_eq_flatMap (root : Xml.Element) :
    frameworksOf root = ((Style.sdk.properties root).filter fun e : Xml.Element =>
      e.tag.name = "TargetFramework" ∨ e.tag.name = "TargetFrameworks").flatMap textPieces := by
  rw [frameworksOf]
  congr 1
  · funext e
    rw [textPieces, ← e.content_eq, ← Text.filterMap_nonBlank?]
    rfl
  · refine List.filter_congr fun e _ => Bool.eq_iff_iff.mpr ?_
    rw [Bool.or_eq_true, Style.matchesName_iff, Style.matchesName_iff, decide_eq_true_eq]
    simp only [reduceCtorEq, false_implies, and_true]

/-- The frameworks of an SDK project are read from its document, whatever a scan finds. -/
theorem targetFrameworks_extract {storage : Storage} {settings : Settings} {path : Path}
    {document : Xml.Document} {m : Markup}
    (h : (extract storage settings path document).result = .ok m) (hsdk : m.style = .sdk) :
    m.targetFrameworks = frameworksOf document.root := by
  cases hparent : path.parent? with
  | none =>
    unfold extract at h
    simp [hparent] at h
  | some directory =>
    rw [result_extract hparent] at h
    split at h
    · obtain ⟨scanned, -, rfl⟩ := Except.map_eq_ok_iff.mp h
      rfl
    · cases h
      cases hsdk

/-- The properties of a parsed document are the elements below the property groups that are directly
in it, each once and in document order; groups that stand deeper add nothing. The target frameworks
of an SDK project are, one property after another, the pieces of the text in those that are named as
frameworks. -/
theorem properties_exact {text : Text} {document : Xml.Document}
    (h : Xml.Document.parse text = .ok document) :
    (∀ s : Style, (∃ placed, placed.map Prod.snd = s.properties document.root ∧
        s.EnumeratesProperties document.root placed ∧
        ∀ n, (∀ group, document.root.child? n = some group →
            s.matchesName "PropertyGroup" group = false) →
          ∀ below x, (n :: below, x) ∉ placed) ∧
      (s.properties document.root).Pairwise fun x y => x.tag.start < y.tag.start) ∧
    ∀ storage settings path m,
      (extract storage settings path document).result = .ok m → m.style = .sdk →
        m.targetFrameworks = ((Style.sdk.properties document.root).filter fun e : Xml.Element =>
          e.tag.name = "TargetFramework" ∨ e.tag.name = "TargetFrameworks").flatMap textPieces := by
  refine ⟨fun s => ⟨⟨_, Style.map_snd_placedProperties s document.root,
    Style.enumerates_placedProperties s document.root, fun n hn below x hx => ?_⟩,
    Style.pairwise_start_properties h s⟩, fun storage settings path m hm hsdk => ?_⟩
  · exact Style.not_hasProperty hn below x (Style.mem_placedProperties.mp hx)
  · rw [targetFrameworks_extract hm hsdk, frameworksOf_eq_flatMap]

/-- A framework in an element that stands in another one, behind a comment. -/
def frameworksText : Text :=
  ("<P Sdk=\"S\"><PropertyGroup><TargetFrameworks>a;<!--;--> b<TargetFramework>c" ++
    "</TargetFramework></TargetFrameworks></PropertyGroup></P>").toList

def frameworksTree : Memory.Tree :=
  (Memory.Tree.empty ⟨"/"⟩).insert ⟨"/p/a.proj"⟩ (.file frameworksText)

theorem properties_exact_frameworks : ∃ document m,
    Xml.Document.parse frameworksText = .ok document ∧
    (extract frameworksTree.storage .default ⟨"/p/a.proj"⟩ document).result = .ok m ∧
    m.style = .sdk ∧ m.targetFrameworks = (["a", "bc", "c"] : List Text) := by
  obtain ⟨document, hparse, hsample⟩ := Xml.Document.exists_of_any
    (show (Xml.Document.parse frameworksText).toOption.any (fun document =>
      (extract frameworksTree.storage .default ⟨"/p/a.proj"⟩ document).result =
          .ok (.sdk "S" [] ["a", "bc", "c"]) ∧
        ((Style.sdk.properties document.root).filter fun e : Xml.Element =>
          e.tag.name = "TargetFramework" ∨ e.tag.name = "TargetFrameworks").flatMap textPieces =
            (["a", "bc", "c"] : List Text)) = true by decide +kernel)
  obtain ⟨hextract, hpieces⟩ := of_decide_eq_true hsample
  obtain ⟨-, hframeworks⟩ := properties_exact hparse
  exact ⟨document, _, hparse, hextract, rfl, (hframeworks _ _ _ _ hextract rfl).trans hpieces⟩

/-- A property group in a choice, and this in a property group that is directly in the project. -/
def deeperText : Text :=
  ("<Project Sdk=\"S\"><PropertyGroup><Choose><When><PropertyGroup><TargetFramework>net8.0" ++
    "</TargetFramework></PropertyGroup></When></Choose></PropertyGroup></Project>").toList

/-- What is in the deeper group is listed, as the outer one is above it too. -/
theorem properties_in_deeper_group : ∃ document,
    Xml.Document.parse deeperText = .ok document ∧
    ¬ ∀ group ∈ document.root.elements, group.tag.name = "PropertyGroup" →
      group ∉ document.root.childElements →
        ∀ x ∈ group.descendants, x ∉ Style.sdk.properties document.root := by
  obtain ⟨document, hparse, hany⟩ := Xml.Document.exists_of_any
    (show (Xml.Document.parse deeperText).toOption.any (fun document =>
      document.root.elements.any fun group => group.tag.name = "PropertyGroup" ∧
        group.tag.start ∉ document.root.childElements.map (fun e => e.tag.start) ∧
        group.descendants.any fun x =>
          x.tag.start ∈ (Style.sdk.properties document.root).map fun e => e.tag.start) = true
      by decide +kernel)
  obtain ⟨group, hgroup, hany⟩ := List.any_eq_true.mp hany
  obtain ⟨hname, hdeeper, hany⟩ := of_decide_eq_true hany
  obtain ⟨x, hx, hstart⟩ := List.any_eq_true.mp hany
  have hlisted : x ∈ Style.sdk.properties document.root := Xml.Document.mem_of_start_mem hparse
    (fun _ => Style.mem_elements_of_mem_properties)
    (Xml.Element.mem_elements_of_mem_descendants hgroup hx) (of_decide_eq_true hstart)
  refine ⟨document, hparse, fun hnone => ?_⟩
  exact hnone group hgroup hname (fun h => hdeeper (List.mem_map_of_mem h)) x hx hlisted

end Markup

end ProjectFile
