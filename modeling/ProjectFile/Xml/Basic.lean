import ProjectFile.Text.Basic

/-!
XML documents as trees. An element carries its name, namespace, attributes and the position of the
`<` that opens it; the elements at and below an element are listed in document order.
-/

namespace ProjectFile.Xml

/-- A place in a text: lines count from 1, and so do the characters of a line. -/
structure Position where
  row : Nat
  column : Nat
deriving DecidableEq

namespace Position

def start : Position := ⟨1, 1⟩

def next (p : Position) (c : Char) : Position :=
  if c = '\n' then ⟨p.row + 1, 1⟩ else ⟨p.row, p.column + 1⟩

def after (p : Position) (t : Text) : Position := t.foldl next p

def text (p : Position) : Text := Text.ofNat p.row ++ ":" ++ Text.ofNat p.column

@[simp] theorem after_nil (p : Position) : p.after [] = p := rfl

@[simp] theorem after_cons (p : Position) (c : Char) (t : Text) :
    p.after (c :: t) = (p.next c).after t := rfl

theorem after_append (p : Position) (s t : Text) : p.after (s ++ t) = (p.after s).after t :=
  List.foldl_append

end Position

/-- An attribute of an element; only a name with a prefix has a namespace. -/
structure Attribute where
  space? : Option Text
  name : Text
  value : Text
deriving DecidableEq

/-- What an element is, its content apart. -/
structure Tag where
  name : Text
  space? : Option Text
  attributes : List Attribute
  start : Position
deriving DecidableEq

inductive Node where
  | element (tag : Tag) (children : List Node)
  | text (content : Text)
  | comment (content : Text)
  | instruction (target content : Text)

structure Element where
  tag : Tag
  children : List Node

/-- The value of the attribute with the given name and no namespace. -/
def Tag.attribute? (t : Tag) (name : Text) : Option Text :=
  (t.attributes.find? fun a => a.space?.isNone && a.name == name).map Attribute.value

/-- Whether the element has an attribute with the given name and no namespace. -/
def Tag.hasAttribute (t : Tag) (name : Text) : Bool := (t.attribute? name).isSome

def Node.element? : Node → Option Element
  | .element tag children => some ⟨tag, children⟩
  | _ => none

mutual

/-- The elements at and below a node, in document order. -/
def Node.elements : Node → List Element
  | .element tag children => ⟨tag, children⟩ :: Node.elementsOf children
  | _ => []

/-- The elements at and below the nodes, in document order. -/
def Node.elementsOf : List Node → List Element
  | [] => []
  | n :: rest => n.elements ++ Node.elementsOf rest

end

mutual

/-- The text in a node, comments and instructions left out. -/
def Node.content : Node → Text
  | .element _ children => Node.contentOf children
  | .text content => content
  | _ => []

/-- The text in the nodes, one after another. -/
def Node.contentOf : List Node → Text
  | [] => []
  | n :: rest => n.content ++ Node.contentOf rest

end

namespace Element

def childElements (e : Element) : List Element := e.children.filterMap Node.element?

def descendants (e : Element) : List Element := Node.elementsOf e.children

def elements (e : Element) : List Element := e :: e.descendants

def content (e : Element) : Text := Node.contentOf e.children

end Element

theorem Node.elementsOf_eq_flatMap (ns : List Node) :
    Node.elementsOf ns = (ns.filterMap Node.element?).flatMap Element.elements := by
  induction ns with
  | nil => rfl
  | cons n ns ih =>
    rw [Node.elementsOf, ih]
    cases n <;> rfl

theorem Element.elements_eq_cons (e : Element) :
    e.elements = e :: e.childElements.flatMap Element.elements := by
  rw [Element.elements, Element.descendants, Node.elementsOf_eq_flatMap, Element.childElements]

end ProjectFile.Xml
