import Mathlib.Logic.Relation
import ProjectFile.Proofs.Xml.Outline
import ProjectFile.Xml.Document

/-!
Comments and instructions in content. `AsideAdded` puts in one, or moves an element as that does;
documents differ by asides if such steps, forward and back, lead from one to the other. A step keeps
the text and the outlines, so documents that differ by asides have roots that are alike but for
their places.
-/

namespace ProjectFile.Xml

def Node.isAside : Node → Bool
  | .comment _ => true
  | .instruction _ _ => true
  | _ => false

/-- The tag wherever it stands. -/
def Tag.placeless (t : Tag) : Tag := { t with start := .start }

/-- Whether content becomes other content by one aside in it, which may split a text, or by another
place of an element in it. -/
inductive AsideAdded : List Node → List Node → Prop
  | between {aside : Node} (h : aside.isAside = true) (before after : List Node) :
      AsideAdded (before ++ after) (before ++ aside :: after)
  | within {aside : Node} (h : aside.isAside = true) (before after : List Node) (s t : Text) :
      AsideAdded (before ++ .text (s ++ t) :: after)
        (before ++ .text s :: aside :: .text t :: after)
  | inside {children children' : List Node} (h : AsideAdded children children') (tag : Tag)
      (before after : List Node) :
      AsideAdded (before ++ .element tag children :: after)
        (before ++ .element tag children' :: after)
  | moved {tag tag' : Tag} (h : tag.placeless = tag'.placeless)
      (children before after : List Node) :
      AsideAdded (before ++ .element tag children :: after)
        (before ++ .element tag' children :: after)

/-- Whether asides and the places of elements are all that makes two documents different. -/
def Document.DiffersByAsides (a b : Document) : Prop :=
  Relation.EqvGen AsideAdded [.element a.root.tag a.root.children]
    [.element b.root.tag b.root.children]

theorem outlines_of_isAside {aside : Node} (h : aside.isAside = true) :
    aside.content = [] ∧ aside.outlines Tag.placeless = [] := by
  cases aside with
  | element tag children => cases h
  | text content => cases h
  | comment content => exact ⟨rfl, rfl⟩
  | instruction target content => exact ⟨rfl, rfl⟩

/-- An aside changes neither the text nor the outlines of what it is put into. -/
theorem AsideAdded.outlines_eq {ns ms : List Node} (h : AsideAdded ns ms) :
    Node.contentOf ns = Node.contentOf ms ∧
      Node.outlinesOf Tag.placeless ns = Node.outlinesOf Tag.placeless ms := by
  induction h with
  | between h before after =>
    obtain ⟨hcontent, houtlines⟩ := outlines_of_isAside h
    simp [Node.contentOf_append, Node.outlinesOf_append, Node.contentOf, Node.outlinesOf, hcontent,
      houtlines]
  | within h before after s t =>
    obtain ⟨hcontent, houtlines⟩ := outlines_of_isAside h
    simp [Node.contentOf_append, Node.outlinesOf_append, Node.contentOf, Node.outlinesOf,
      Node.content, Node.outlines, hcontent, houtlines]
  | inside h tag before after ih =>
    obtain ⟨hcontent, houtlines⟩ := ih
    simp [Node.contentOf_append, Node.outlinesOf_append, Node.contentOf, Node.outlinesOf,
      Node.content, Node.outlines, hcontent, houtlines]
  | moved h children before after =>
    simp [Node.contentOf_append, Node.outlinesOf_append, Node.contentOf, Node.outlinesOf,
      Node.content, Node.outlines, h]

theorem outlinesOf_eq_of_eqvGen {ns ms : List Node} (h : Relation.EqvGen AsideAdded ns ms) :
    Node.outlinesOf Tag.placeless ns = Node.outlinesOf Tag.placeless ms := by
  induction h with
  | rel ns ms step => exact step.outlines_eq.2
  | refl ns => rfl
  | symm ns ms _ ih => exact ih.symm
  | trans ns ms ls _ _ first second => exact first.trans second

/-- The roots of documents that differ by asides are alike. -/
theorem Document.DiffersByAsides.alike {a b : Document} (h : a.DiffersByAsides b) :
    a.root.Alike Tag.placeless b.root :=
  (List.cons.inj (outlinesOf_eq_of_eqvGen h)).1

end ProjectFile.Xml
