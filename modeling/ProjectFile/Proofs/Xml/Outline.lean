import Mathlib.Data.List.Forall2
import ProjectFile.Xml.Basic

/-!
Outlines of elements: the tag, as far as it is looked at, the text inside and the outlines of the
elements inside. Elements with one outline are alike. The elements at and below two elements that
are alike are alike one by one, whatever else stands between them.
-/

namespace ProjectFile.Xml

/-- What an element shows: its tag, its text and its element children. -/
inductive Outline where
  | mk (tag : Tag) (content : Text) (children : List Outline)

mutual

/-- The outlines of an element and of those in it, in document order. -/
def Outline.all : Outline → List Outline
  | .mk tag content children => .mk tag content children :: Outline.allOf children

def Outline.allOf : List Outline → List Outline
  | [] => []
  | o :: rest => o.all ++ Outline.allOf rest

end

theorem Outline.allOf_append (os ps : List Outline) : allOf (os ++ ps) = allOf os ++ allOf ps := by
  induction os with
  | nil => rfl
  | cons o os ih => rw [List.cons_append, allOf, allOf, ih, List.append_assoc]

mutual

/-- The outline of a node if it is an element; `view` tells what is looked at of a tag. -/
def Node.outlines (view : Tag → Tag) : Node → List Outline
  | .element tag children =>
    [.mk (view tag) (Node.contentOf children) (Node.outlinesOf view children)]
  | _ => []

def Node.outlinesOf (view : Tag → Tag) : List Node → List Outline
  | [] => []
  | n :: rest => n.outlines view ++ Node.outlinesOf view rest

end

namespace Node

theorem contentOf_append (ns ms : List Node) :
    contentOf (ns ++ ms) = contentOf ns ++ contentOf ms := by
  induction ns with
  | nil => rfl
  | cons n ns ih => rw [List.cons_append, contentOf, contentOf, ih, List.append_assoc]

theorem outlinesOf_append (view : Tag → Tag) (ns ms : List Node) :
    outlinesOf view (ns ++ ms) = outlinesOf view ns ++ outlinesOf view ms := by
  induction ns with
  | nil => rfl
  | cons n ns ih => rw [List.cons_append, outlinesOf, outlinesOf, ih, List.append_assoc]

end Node

namespace Element

def outline (view : Tag → Tag) (e : Element) : Outline :=
  .mk (view e.tag) e.content (Node.outlinesOf view e.children)

/-- Whether two elements show the same. -/
def Alike (view : Tag → Tag) (e e' : Element) : Prop := e.outline view = e'.outline view

end Element

mutual

theorem Node.map_outline_elements (view : Tag → Tag) : (n : Node) →
    n.elements.map (Element.outline view) = Outline.allOf (n.outlines view)
  | .element tag children => by
    rw [elements, List.map_cons, Node.map_outline_elementsOf view children, outlines,
      Outline.allOf, Outline.all, Outline.allOf, List.append_nil]
    rfl
  | .text _ => rfl
  | .comment _ => rfl
  | .instruction _ _ => rfl

theorem Node.map_outline_elementsOf (view : Tag → Tag) : (ns : List Node) →
    (elementsOf ns).map (Element.outline view) = Outline.allOf (outlinesOf view ns)
  | [] => rfl
  | n :: rest => by
    rw [elementsOf, List.map_append, Node.map_outline_elements view n,
      Node.map_outline_elementsOf view rest, outlinesOf, Outline.allOf_append]

end

theorem Node.map_outline_element? (view : Tag → Tag) (ns : List Node) :
    (ns.filterMap element?).map (Element.outline view) = outlinesOf view ns := by
  induction ns with
  | nil => rfl
  | cons n ns ih =>
    cases n with
    | element tag children => exact congrArg (_ :: ·) ih
    | text content => exact ih
    | comment content => exact ih
    | instruction target content => exact ih

namespace Element.Alike

variable {view : Tag → Tag} {e e' : Element}

theorem forall₂_of_map_eq {es es' : List Element}
    (h : es.map (outline view) = es'.map (outline view)) : List.Forall₂ (Alike view) es es' := by
  rw [← List.forall₂_eq_eq_eq, List.forall₂_map_left_iff, List.forall₂_map_right_iff] at h
  exact h

theorem tag (h : Alike view e e') : view e.tag = view e'.tag := (Outline.mk.inj h).1

theorem content (h : Alike view e e') : e.content = e'.content := (Outline.mk.inj h).2.1

theorem childElements (h : Alike view e e') :
    List.Forall₂ (Alike view) e.childElements e'.childElements := by
  refine forall₂_of_map_eq ?_
  rw [Element.childElements, Element.childElements, Node.map_outline_element?,
    Node.map_outline_element?]
  exact (Outline.mk.inj h).2.2

theorem descendants (h : Alike view e e') :
    List.Forall₂ (Alike view) e.descendants e'.descendants := by
  refine forall₂_of_map_eq ?_
  rw [Element.descendants, Element.descendants, Node.map_outline_elementsOf,
    Node.map_outline_elementsOf, (Outline.mk.inj h).2.2]

theorem elements (h : Alike view e e') : List.Forall₂ (Alike view) e.elements e'.elements :=
  .cons h h.descendants

end Element.Alike

end ProjectFile.Xml
