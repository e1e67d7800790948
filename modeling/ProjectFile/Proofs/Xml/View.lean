import ProjectFile.Proofs.Xml.Outline
import ProjectFile.Xml.Document

/-!
Documents as a view shows them: the same tree, with only so much of each tag as is looked at. What a
view shows of a tag it shows again when it looks twice, and then the document that is shown and the
document itself are alike.
-/

namespace ProjectFile.Xml

mutual

/-- The node with so much of each tag as the view shows. -/
def Node.viewed (view : Tag → Tag) : Node → Node
  | .element tag children => .element (view tag) (Node.viewedOf view children)
  | .text content => .text content
  | .comment content => .comment content
  | .instruction target content => .instruction target content

def Node.viewedOf (view : Tag → Tag) : List Node → List Node
  | [] => []
  | n :: rest => n.viewed view :: Node.viewedOf view rest

end

def Element.viewed (view : Tag → Tag) (e : Element) : Element :=
  ⟨view e.tag, Node.viewedOf view e.children⟩

def Document.viewed (view : Tag → Tag) (d : Document) : Document := ⟨d.root.viewed view⟩

mutual

theorem Node.content_viewed (view : Tag → Tag) : (n : Node) → (n.viewed view).content = n.content
  | .element tag children => by
    rw [viewed, content, Node.contentOf_viewedOf view children, content]
  | .text _ => rfl
  | .comment _ => rfl
  | .instruction _ _ => rfl

theorem Node.contentOf_viewedOf (view : Tag → Tag) : (ns : List Node) →
    contentOf (viewedOf view ns) = contentOf ns
  | [] => rfl
  | n :: rest => by
    rw [viewedOf, contentOf, Node.content_viewed view n, Node.contentOf_viewedOf view rest,
      contentOf]

end

mutual

theorem Node.outlines_viewed {view : Tag → Tag} (hview : ∀ t, view (view t) = view t) :
    (n : Node) → (n.viewed view).outlines view = n.outlines view
  | .element tag children => by
    rw [viewed, outlines, hview, Node.contentOf_viewedOf, Node.outlinesOf_viewedOf hview children,
      outlines]
  | .text _ => rfl
  | .comment _ => rfl
  | .instruction _ _ => rfl

theorem Node.outlinesOf_viewedOf {view : Tag → Tag} (hview : ∀ t, view (view t) = view t) :
    (ns : List Node) → outlinesOf view (viewedOf view ns) = outlinesOf view ns
  | [] => rfl
  | n :: rest => by
    rw [viewedOf, outlinesOf, Node.outlines_viewed hview n, Node.outlinesOf_viewedOf hview rest,
      outlinesOf]

end

/-- An element and what is shown of it are alike. -/
theorem Element.alike_viewed {view : Tag → Tag} (hview : ∀ t, view (view t) = view t)
    (e : Element) : (e.viewed view).Alike view e := by
  have hcontent : (e.viewed view).content = e.content := Node.contentOf_viewedOf view e.children
  have houtlines := Node.outlinesOf_viewedOf hview e.children
  unfold Alike outline
  rw [hcontent]
  simp only [viewed, hview, houtlines]

/-- Documents of which the same is shown have roots that are alike. -/
theorem Document.alike_of_viewed_eq (view : Tag → Tag) (hview : ∀ t, view (view t) = view t)
    {a b : Document} (h : a.viewed view = b.viewed view) : a.root.Alike view b.root := by
  have ha := Element.alike_viewed hview a.root
  rw [show a.root.viewed view = b.root.viewed view from congrArg root h] at ha
  exact ha.symm.trans (Element.alike_viewed hview b.root)

end ProjectFile.Xml
