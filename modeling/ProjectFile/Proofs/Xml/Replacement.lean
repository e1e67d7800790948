import ProjectFile.Proofs.Xml.Asides
import ProjectFile.Proofs.Xml.View

/-!
One element replaced by two that stand next to each other, at any depth of a document. What is told
of the elements one after another is the same before and after, if the element tells what the two
tell together and the elements around it tell the same when the replacement is made in them.
-/

namespace ProjectFile.Xml

def Element.node (e : Element) : Node := .element e.tag e.children

/-- Whether contents are the same but for `x`, for which `y` and `z` stand in the other one. The
tags are those of the elements around `x`, from the outside in. -/
inductive Replaced (x y z : Element) : List Tag → List Node → List Node → Prop
  | here (before after : List Node) :
      Replaced x y z [] (before ++ x.node :: after) (before ++ y.node :: z.node :: after)
  | inside {above : List Tag} {children children' : List Node}
      (h : Replaced x y z above children children') (tag : Tag) (before after : List Node) :
      Replaced x y z (tag :: above) (before ++ .element tag children :: after)
        (before ++ .element tag children' :: after)

/-- Whether the second document is the first one with `y` and `z` for `x`, wherever in a text the
elements of both start. The tags are those between the root and `x`. -/
def Document.Replaces (x y z : Element) (above : List Tag) (a b : Document) : Prop :=
  ∃ children, Replaced x y z above a.root.children children ∧
    Document.viewed Tag.placeless ⟨⟨a.root.tag, children⟩⟩ = b.viewed Tag.placeless

namespace Replaced

variable {x y z : Element} {above : List Tag} {ns ms : List Node} {γ : Type}
  {F : Element → List γ}

/-- The text stays the same if the element holds the text of the two. -/
theorem contentOf_eq (h : Replaced x y z above ns ms)
    (hcontent : x.content = y.content ++ z.content) :
    Node.contentOf ns = Node.contentOf ms := by
  induction h with
  | here before after =>
    have hx : x.node.content = y.node.content ++ z.node.content := hcontent
    rw [Node.contentOf_append, Node.contentOf_append, Node.contentOf, Node.contentOf,
      Node.contentOf, hx, List.append_assoc]
  | inside _ tag before after ih =>
    rw [Node.contentOf_append, Node.contentOf_append, Node.contentOf, Node.contentOf, Node.content,
      Node.content, ih]

/-- What the children tell is the same if a child around the replacement tells the same. -/
theorem flatMap_children (h : Replaced x y z above ns ms) (hF : F x = F y ++ F z)
    (hinside : ∀ tag above' c c', above = tag :: above' → Replaced x y z above' c c' →
      F ⟨tag, c⟩ = F ⟨tag, c'⟩) :
    (ns.filterMap Node.element?).flatMap F = (ms.filterMap Node.element?).flatMap F := by
  cases h with
  | here before after =>
    simp [List.filterMap_append, Element.node, Node.element?, hF]
  | inside h tag before after =>
    simp [List.filterMap_append, Node.element?, hinside tag _ _ _ rfl h]

/-- What the elements at all depths tell is the same if no element stands in the three, and if an
element around the replacement tells the same. -/
theorem flatMap_elements (h : Replaced x y z above ns ms) (hF : F x = F y ++ F z)
    (hleaf : ∀ e ∈ [x, y, z], e.childElements = [])
    (hinside : above = [] ∨ ∀ tag above' c c', Replaced x y z above' c c' →
      F ⟨tag, c⟩ = F ⟨tag, c'⟩) :
    (Node.elementsOf ns).flatMap F = (Node.elementsOf ms).flatMap F := by
  have hself (e : Element) (he : e ∈ [x, y, z]) : e.elements.flatMap F = F e := by
    rw [Element.elements_eq_cons, hleaf e he, List.flatMap_nil, List.flatMap_singleton]
  have hthree : x.elements.flatMap F = y.elements.flatMap F ++ z.elements.flatMap F := by
    rw [hself x (by simp), hself y (by simp), hself z (by simp), hF]
  induction above generalizing ns ms with
  | nil =>
    rw [Node.elementsOf_eq_flatMap, Node.elementsOf_eq_flatMap, List.flatMap_assoc,
      List.flatMap_assoc]
    apply h.flatMap_children hthree
    intro tag above' c c' heq
    cases heq
  | cons tag above ih =>
    have hinside := hinside.resolve_left (List.cons_ne_nil tag above)
    rw [Node.elementsOf_eq_flatMap, Node.elementsOf_eq_flatMap, List.flatMap_assoc,
      List.flatMap_assoc]
    apply h.flatMap_children hthree
    intro tag' above' c c' heq hc
    obtain ⟨rfl, rfl⟩ := List.cons.inj heq
    have hbelow : (Node.elementsOf c).flatMap F = (Node.elementsOf c').flatMap F :=
      ih hc (.inr hinside)
    rw [Element.elements, Element.elements, List.flatMap_cons, List.flatMap_cons,
      hinside tag above c c' hc]
    exact congrArg (F ⟨tag, c'⟩ ++ ·) hbelow

end Replaced

end ProjectFile.Xml
