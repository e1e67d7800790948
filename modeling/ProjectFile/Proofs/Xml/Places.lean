import ProjectFile.Xml.Basic

/-!
Places in a document. A place is the way down from the root, one child after another, so each
element has a place of its own even if it looks like others. The elements of a document are those
at its places, and document order is the order of the places as lists of numbers.
-/

namespace ProjectFile.Xml

/-- The way down to an element: at each step the number of the child to go on with. -/
abbrev Place := List Nat

namespace Element

/-- The child at an index, if it is an element. -/
def child? (e : Element) (n : Nat) : Option Element := e.children[n]?.bind Node.element?

/-- The element at a place below. -/
def at? (e : Element) : Place → Option Element
  | [] => some e
  | n :: place => (e.child? n).bind fun child => child.at? place

@[simp] theorem at?_nil (e : Element) : e.at? [] = some e := rfl

theorem at?_cons_eq_some_iff {e x : Element} {n : Nat} {place : Place} :
    e.at? (n :: place) = some x ↔ ∃ child, e.child? n = some child ∧ child.at? place = some x := by
  rw [at?, Option.bind_eq_some_iff]

theorem at?_append (e : Element) (p q : Place) :
    e.at? (p ++ q) = (e.at? p).bind fun x => x.at? q := by
  induction p generalizing e with
  | nil => rfl
  | cons n p ih =>
    rw [List.cons_append, at?, at?, Option.bind_assoc]
    congr 1
    funext child
    exact ih child

/-- The element children with their indices. -/
def placedChildren (e : Element) : List (Nat × Element) :=
  e.children.zipIdx.filterMap fun x => x.1.element?.map fun child => (x.2, child)

theorem mem_placedChildren {e x : Element} {n : Nat} :
    (n, x) ∈ e.placedChildren ↔ e.child? n = some x := by
  simp only [placedChildren, List.mem_filterMap, child?, Option.bind_eq_some_iff,
    Option.map_eq_some_iff, Prod.mk.injEq, List.mem_zipIdx_iff_getElem?]
  constructor
  · rintro ⟨⟨node, _⟩, hnode, _, helement, rfl, rfl⟩
    exact ⟨node, hnode, helement⟩
  · rintro ⟨node, hnode, helement⟩
    exact ⟨(node, n), hnode, x, helement, rfl, rfl⟩

theorem pairwise_placedChildren (e : Element) :
    e.placedChildren.Pairwise fun x y => x.1 < y.1 := by
  have hindices : (e.children.zipIdx.map Prod.snd).Pairwise (· < ·) := by
    rw [List.zipIdx_map_snd, ← List.range_eq_range']
    exact List.pairwise_lt_range
  refine List.Pairwise.filterMap _ ?_ (List.pairwise_map.mp hindices)
  intro x y hlt x' hx y' hy
  obtain ⟨_, -, rfl⟩ := Option.map_eq_some_iff.mp hx
  obtain ⟨_, -, rfl⟩ := Option.map_eq_some_iff.mp hy
  exact hlt

theorem map_snd_placedChildren (e : Element) : e.placedChildren.map Prod.snd = e.childElements := by
  calc
    e.placedChildren.map Prod.snd = e.children.zipIdx.filterMap (Node.element? ∘ Prod.fst) := by
      rw [placedChildren, List.map_filterMap]
      congr 1
      funext x
      simp [Option.map_map, Function.comp_def]
    _ = e.childElements := by
      rw [← List.filterMap_map, List.zipIdx_map_fst, childElements]

end Element

mutual

/-- The elements at and below a node with their places, in document order. -/
def Node.places : Node → List (Place × Element)
  | .element tag children => ([], ⟨tag, children⟩) :: Node.placesFrom 0 children
  | _ => []

/-- The elements at and below nodes that are children from the index `first` on. -/
def Node.placesFrom (first : Nat) : List Node → List (Place × Element)
  | [] => []
  | n :: rest => n.places.map (fun x => (first :: x.1, x.2)) ++ Node.placesFrom (first + 1) rest

end

theorem Node.mem_placesFrom {first : Nat} {nodes : List Node} {y : Place × Element} :
    y ∈ Node.placesFrom first nodes ↔
      ∃ i n x, nodes[i]? = some n ∧ x ∈ n.places ∧ y = ((first + i) :: x.1, x.2) := by
  induction nodes generalizing first with
  | nil => simp [placesFrom]
  | cons n nodes ih =>
    rw [placesFrom, List.mem_append, List.mem_map, ih]
    constructor
    · rintro (⟨x, hx, rfl⟩ | ⟨i, m, x, hm, hx, rfl⟩)
      · exact ⟨0, n, x, rfl, hx, rfl⟩
      · exact ⟨i + 1, m, x, hm, hx, by simp; omega⟩
    · rintro ⟨_ | i, m, x, hm, hx, rfl⟩
      · obtain rfl : n = m := by simpa using hm
        exact .inl ⟨x, hx, rfl⟩
      · exact .inr ⟨i, m, x, hm, hx, by simp; omega⟩

theorem Node.mem_places {n : Node} {place : Place} {x : Element} :
    (place, x) ∈ n.places ↔ ∃ e, n.element? = some e ∧ e.at? place = some x := by
  induction place generalizing n with
  | nil =>
    cases n with
    | element tag children => simp [places, element?, mem_placesFrom, eq_comm]
    | text content => simp [places, element?]
    | comment content => simp [places, element?]
    | instruction target content => simp [places, element?]
  | cons k place ih =>
    cases n with
    | element tag children =>
      rw [places, List.mem_cons, mem_placesFrom]
      constructor
      · rintro (h | ⟨i, m, y, hm, hy, h⟩)
        · cases h
        · obtain ⟨hplace, rfl⟩ := Prod.mk.inj h
          obtain ⟨rfl, rfl⟩ : k = i ∧ place = y.1 := by simpa using hplace
          obtain ⟨e, he, hat⟩ := ih.mp hy
          refine ⟨_, rfl, Element.at?_cons_eq_some_iff.mpr ⟨e, ?_, hat⟩⟩
          simp [Element.child?, hm, he]
      · rintro ⟨e, he, hat⟩
        obtain rfl : ⟨tag, children⟩ = e := by simpa [element?] using he
        obtain ⟨child, hchild, hat⟩ := Element.at?_cons_eq_some_iff.mp hat
        obtain ⟨m, hm, hchild⟩ := Option.bind_eq_some_iff.mp hchild
        exact .inr ⟨k, m, (place, x), hm, ih.mpr ⟨child, hchild, hat⟩, by simp⟩
    | text content => simp [places, element?]
    | comment content => simp [places, element?]
    | instruction target content => simp [places, element?]

mutual

/-- Without their places the elements are those of the node. -/
theorem Node.map_snd_places : (n : Node) → n.places.map Prod.snd = n.elements
  | .element tag children => by
    rw [places, elements, List.map_cons, Node.map_snd_placesFrom 0 children]
  | .text _ => rfl
  | .comment _ => rfl
  | .instruction _ _ => rfl

theorem Node.map_snd_placesFrom : (first : Nat) → (nodes : List Node) →
    (placesFrom first nodes).map Prod.snd = elementsOf nodes
  | _, [] => rfl
  | first, n :: rest => by
    rw [placesFrom, elementsOf, List.map_append, List.map_map,
      Node.map_snd_placesFrom (first + 1) rest, ← Node.map_snd_places n]
    rfl

end

mutual

/-- The places rise: an element comes before those in it, and these before those that follow it. -/
theorem Node.pairwise_places : (n : Node) → n.places.Pairwise fun x y => x.1 < y.1
  | .element tag children => by
    refine List.pairwise_cons.mpr ⟨fun y hy => ?_, Node.pairwise_placesFrom 0 children⟩
    obtain ⟨i, m, x, -, -, rfl⟩ := mem_placesFrom.mp hy
    exact List.nil_lt_cons _ _
  | .text _ => .nil
  | .comment _ => .nil
  | .instruction _ _ => .nil

theorem Node.pairwise_placesFrom : (first : Nat) → (nodes : List Node) →
    (placesFrom first nodes).Pairwise fun x y => x.1 < y.1
  | _, [] => .nil
  | first, n :: rest => by
    refine List.pairwise_append.mpr ⟨?_, Node.pairwise_placesFrom (first + 1) rest, ?_⟩
    · refine List.pairwise_map.mpr ((Node.pairwise_places n).imp fun h => ?_)
      exact List.cons_lt_cons_iff.mpr (.inr ⟨rfl, h⟩)
    · intro x hx y hy
      obtain ⟨x, -, rfl⟩ := List.mem_map.mp hx
      obtain ⟨i, m, y, -, -, rfl⟩ := mem_placesFrom.mp hy
      exact List.cons_lt_cons_iff.mpr (.inl (by omega))

end

namespace Element

/-- The elements of a document with their places, in document order. -/
def places (e : Element) : List (Place × Element) := ([], e) :: Node.placesFrom 0 e.children

theorem mem_places {e x : Element} {place : Place} :
    (place, x) ∈ e.places ↔ e.at? place = some x := by
  have h : (place, x) ∈ e.places ↔ ∃ e', some e = some e' ∧ e'.at? place = some x :=
    Node.mem_places (n := .element e.tag e.children)
  simpa using h

theorem map_snd_places (e : Element) : e.places.map Prod.snd = e.elements := by
  rw [places, elements, descendants, List.map_cons, Node.map_snd_placesFrom]

theorem pairwise_places (e : Element) : e.places.Pairwise fun x y => x.1 < y.1 :=
  (Node.element e.tag e.children).pairwise_places

/-- Below an element is what has a place in it other than its own. -/
theorem mem_placesFrom_children {e x : Element} {place : Place} :
    (place, x) ∈ Node.placesFrom 0 e.children ↔ place ≠ [] ∧ e.at? place = some x := by
  rw [← mem_places, places, List.mem_cons]
  constructor
  · intro h
    obtain ⟨_, _, _, -, -, heq⟩ := Node.mem_placesFrom.mp h
    exact ⟨by simp [(Prod.mk.inj heq).1], .inr h⟩
  · rintro ⟨hne, heq | h⟩
    · exact absurd (Prod.mk.inj heq).1 hne
    · exact h

theorem mem_elements_iff {e x : Element} : x ∈ e.elements ↔ ∃ place, e.at? place = some x := by
  simp [← map_snd_places, mem_places]

theorem mem_descendants_iff {e x : Element} :
    x ∈ e.descendants ↔ ∃ place, place ≠ [] ∧ e.at? place = some x := by
  simp [descendants, ← Node.map_snd_placesFrom 0, mem_placesFrom_children]

theorem mem_childElements_iff {e x : Element} :
    x ∈ e.childElements ↔ ∃ n, e.child? n = some x := by
  simp [← map_snd_placedChildren, mem_placedChildren]

end Element

end ProjectFile.Xml
