import ProjectFile.Proofs.Xml.Advance

/-!
Where elements start. Each element of a parsed document starts at a `<` of the text, its position is
the one found by counting up to there, and in document order these positions rise. The content of an
element is read in steps, and the first of them is taken apart once (`Cursor.Step`). Its elements
are found between two cursors, and what is read between the same cursors one after another keeps its
order.
-/

namespace ProjectFile.Xml

/-- What is given after either of two steps is given after the one that is taken. -/
theorem exists_of_ite_bind {ε α β : Type} {b : Bool} {x y : Except ε α} {next : α → Except ε β}
    {z : β} (h : (if b = true then x >>= next else y >>= next) = .ok z) :
    ∃ a, (if b = true then x else y) = .ok a ∧ next a = .ok z := by
  cases b with
  | true => exact Except.bind_eq_ok_iff.mp h
  | false => exact Except.bind_eq_ok_iff.mp h

namespace Cursor

/-- Whether an element starts at a `<` between two cursors. -/
structure Holds (c c' : Cursor) (e : Element) (place : Cursor) : Prop where
  before : c.Advances place
  opened : ∃ rest, place.rest = '<' :: rest
  start : e.tag.start = place.position
  after : (place.drop 1).Advances c'

/-- Whether elements are found in this order between two cursors. -/
structure Spans (c c' : Cursor) (es : List Element) : Prop where
  advances : c.Advances c'
  places : ∀ e ∈ es, ∃ place, Holds c c' e place
  ordered : es.Pairwise fun x y => x.tag.start < y.tag.start

namespace Spans

variable {c₁ c₂ c₃ : Cursor}

theorem nil (h : c₁.Advances c₂) : Spans c₁ c₂ [] :=
  ⟨h, fun _ he => (List.not_mem_nil he).elim, .nil⟩

theorem of_aside {n : Node} (h : c₁.Advances c₂ ∧ n.elements = []) : Spans c₁ c₂ n.elements := by
  rw [h.2]
  exact nil h.1

theorem append {xs ys : List Element} (h : Spans c₁ c₂ xs) (h' : Spans c₂ c₃ ys) :
    Spans c₁ c₃ (xs ++ ys) := by
  refine ⟨h.advances.trans h'.advances, fun e he => ?_, ?_⟩
  · rcases List.mem_append.mp he with he | he
    · obtain ⟨place, hplace⟩ := h.places e he
      exact ⟨place, hplace.before, hplace.opened, hplace.start,
        hplace.after.trans h'.advances⟩
    · obtain ⟨place, hplace⟩ := h'.places e he
      exact ⟨place, h.advances.trans hplace.before, hplace.opened, hplace.start, hplace.after⟩
  · refine List.pairwise_append.mpr ⟨h.ordered, h'.ordered, fun x hx y hy => ?_⟩
    obtain ⟨place, hplace⟩ := h.places x hx
    obtain ⟨place', hplace'⟩ := h'.places y hy
    obtain ⟨rest, hrest⟩ := hplace.opened
    have hlt : place.position < place'.position :=
      hplace'.before.lt_of_lt (hplace.after.lt_of_lt (lt_drop_one hrest))
    rwa [hplace.start, hplace'.start]

/-- An element comes before those in it. -/
theorem element {tag : Tag} {children : List Node} (hopened : ∃ rest, c₁.rest = '<' :: rest)
    (hstart : tag.start = c₁.position) (h : Spans (c₁.drop 1) c₂ (Node.elementsOf children)) :
    Spans c₁ c₂ (Node.element tag children).elements := by
  refine ⟨(c₁.advances_drop 1).trans h.advances, fun e he => ?_, ?_⟩
  · rcases List.mem_cons.mp he with rfl | he
    · exact ⟨c₁, .refl c₁, hopened, hstart, h.advances⟩
    · obtain ⟨place, hplace⟩ := h.places e he
      exact ⟨place, (c₁.advances_drop 1).trans hplace.before, hplace.opened, hplace.start,
        hplace.after⟩
  · refine List.pairwise_cons.mpr ⟨fun e he => ?_, h.ordered⟩
    obtain ⟨place, hplace⟩ := h.places e he
    obtain ⟨rest, hrest⟩ := hopened
    have hlt : c₁.position < place.position := hplace.before.lt_of_lt (lt_drop_one hrest)
    rwa [hplace.start, hstart]

/-- An element is found from its start tag to the end of its content. -/
theorem of_startTag {cut : Error} {start : StartTag} {hasContent : Bool} {scope : Scope} {tag : Tag}
    {children : List Node} (hopened : ∃ rest, c₁.rest = '<' :: rest)
    (hstart : c₁.startTag cut = .ok (start, hasContent, c₂)) (htag : start.finish scope = .ok tag)
    (h : Spans c₂ c₃ (Node.elementsOf children)) :
    Spans c₁ c₃ (Node.element tag children).elements := by
  obtain ⟨hadvances, hplace⟩ := advances_startTag hstart
  exact element hopened ((StartTag.finish_eq_ok htag).2.trans hplace) ((nil hadvances).append h)

end Spans

variable {c c' : Cursor}

/-- What the content of an element begins with, in the order in which it is read: its end tag; an
item without elements in it, and more content; or an element, and more content. -/
inductive Step (n : Nat) (scope : Scope) (opened : QName) (c : Cursor) : List Node → Cursor → Prop
  | done {c' : Cursor} (h : c.Advances c') : Step n scope opened c [] c'
  | aside {node : Node} {more : List Node} {rest c' : Cursor}
      (hnode : c.Advances rest ∧ node.elements = [])
      (hmore : content n scope opened rest = .ok (more, c')) :
      Step n scope opened c (node :: more) c'
  | element {start : StartTag} {hasContent : Bool} {tag : Tag} {children more : List Node}
      {inside after c' : Cursor} (hopened : ∃ rest, c.rest = '<' :: rest)
      (hstart : c.startTag .unclosedRoot = .ok (start, hasContent, inside))
      (htag : start.finish scope = .ok tag)
      (hchildren : (children, after) = ([], inside) ∨
        content n (start.scope scope) start.name inside = .ok (children, after))
      (hmore : content n scope opened after = .ok (more, c')) :
      Step n scope opened c (.element tag children :: more) c'

namespace Step

variable {n : Nat} {scope : Scope} {opened : QName} {nodes : List Node}

theorem of_aside {item : Except Error (Node × Cursor)}
    (hitem : ∀ {node rest}, item = .ok (node, rest) → c.Advances rest ∧ node.elements = [])
    (h : (item >>= fun x => content n scope opened x.2 >>= fun y => .ok (x.1 :: y.1, y.2)) =
      .ok (nodes, c')) : Step n scope opened c nodes c' := by
  obtain ⟨⟨node, rest⟩, hfirst, h⟩ := Except.bind_eq_ok_iff.mp h
  obtain ⟨⟨more, c'⟩, hmore, h⟩ := Except.bind_eq_ok_iff.mp h
  cases h
  exact .aside (hitem hfirst) hmore

theorem of_content (h : content (n + 1) scope opened c = .ok (nodes, c')) :
    Step n scope opened c nodes c' := by
  unfold content at h
  -- By the first characters: an end tag, what has no elements in it, an element, or text.
  split at h
  · cases h
  · cases h
  · obtain ⟨⟨closed, rest⟩, hend, h⟩ := Except.bind_eq_ok_iff.mp h
    dsimp only at h
    split at h
    · cases h
      exact .done (advances_endTag hend)
    · cases h
  · split at h
    · exact .of_aside advances_comment h
    · split at h
      · exact .of_aside advances_rawSection h
      · cases h
  · exact .of_aside advances_instruction h
  · next following _ _ _ _ hrest =>
    obtain ⟨⟨start, hasContent, inside⟩, hstart, h⟩ := Except.bind_eq_ok_iff.mp h
    obtain ⟨tag, htag, h⟩ := Except.bind_eq_ok_iff.mp h
    obtain ⟨⟨children, after⟩, hchildren, h⟩ := exists_of_ite_bind h
    obtain ⟨⟨more, _⟩, hmore, h⟩ := Except.bind_eq_ok_iff.mp h
    cases h
    refine .element ⟨following, hrest⟩ hstart htag ?_ hmore
    split at hchildren
    · exact .inr hchildren
    · exact .inl (Except.ok.inj hchildren).symm
  · exact .of_aside advances_textRun h

end Step

/-- The elements in the content of an element are found up to its end tag. -/
theorem spans_content {n : Nat} {scope : Scope} {opened : QName} {nodes : List Node}
    (h : content n scope opened c = .ok (nodes, c')) : Spans c c' (Node.elementsOf nodes) := by
  induction n generalizing c c' scope opened nodes with
  | zero => cases h
  | succ n ih =>
    cases Step.of_content h with
    | done hend => exact .nil hend
    | aside hnode hmore => exact (Spans.of_aside hnode).append (ih hmore)
    | @element _ _ _ children _ inside after _ hopened hstart htag hchildren hmore =>
      have hinside : Spans inside after (Node.elementsOf children) := by
        rcases hchildren with heq | hchildren
        · cases heq
          exact .nil (.refl _)
        · exact ih hchildren
      exact (Spans.of_startTag hopened hstart htag hinside).append (ih hmore)

/-- The root element is a start tag and its content, if it has any. -/
theorem rootElement_eq_ok {root : Element} (h : c.rootElement = .ok (root, c')) :
    ∃ start hasContent inside, c.startTag .noRoot = .ok (start, hasContent, inside) ∧
      start.finish [] = .ok root.tag ∧ ((root.children, c') = ([], inside) ∨
        content inside.rest.length (start.scope []) start.name inside =
          .ok (root.children, c')) := by
  obtain ⟨⟨start, hasContent, inside⟩, hstart, h⟩ := Except.bind_eq_ok_iff.mp h
  obtain ⟨tag, htag, h⟩ := Except.bind_eq_ok_iff.mp h
  obtain ⟨⟨children, after⟩, hchildren, h⟩ := exists_of_ite_bind h
  cases h
  refine ⟨start, hasContent, inside, hstart, htag, ?_⟩
  split at hchildren
  · exact .inr hchildren
  · exact .inl (Except.ok.inj hchildren).symm

theorem spans_rootElement {root : Element} (hopened : ∃ rest, c.rest = '<' :: rest)
    (h : c.rootElement = .ok (root, c')) : Spans c c' root.elements := by
  obtain ⟨start, hasContent, inside, hstart, htag, hchildren⟩ := rootElement_eq_ok h
  refine Spans.of_startTag hopened hstart htag ?_
  rcases hchildren with heq | hchildren
  · obtain ⟨hnone, rfl⟩ := Prod.mk.inj heq
    rw [hnone]
    exact .nil (.refl _)
  · exact spans_content hchildren

end Cursor

namespace Document

variable {text : Text} {document : Document}

/-- A document is read from a `<` of its text on. -/
theorem exists_rootElement (h : Document.parse text = .ok document) : ∃ c c',
    (Cursor.ofText text).Advances c ∧ (∃ rest, c.rest = '<' :: rest) ∧
      c.rootElement = .ok (document.root, c') := by
  unfold Document.parse at h
  dsimp only at h
  generalize hbegin : (if (Cursor.ofText text).looksAt ['\uFEFF'] = true then
    (Cursor.ofText text).drop 1 else Cursor.ofText text) = c₀ at h
  have hmark : (Cursor.ofText text).Advances c₀ := by
    rw [← hbegin]
    split
    · exact Cursor.advances_drop _ 1
    · exact .refl _
  obtain ⟨c₁, h₁, h⟩ := exists_of_ite_bind h
  have hdeclaration : c₀.Advances c₁ := by
    split at h₁
    · exact Cursor.advances_declaration h₁
    · cases h₁
      exact .refl _
  obtain ⟨c₂, h₂, h⟩ := Except.bind_eq_ok_iff.mp h
  split at h
  · cases h
  · split at h
    · next hlooks =>
      obtain ⟨⟨root, c₃⟩, hroot, h⟩ := Except.bind_eq_ok_iff.mp h
      obtain ⟨_, hfound, h⟩ := Except.bind_eq_ok_iff.mp h
      cases hfound
      obtain ⟨c₄, -, h⟩ := Except.bind_eq_ok_iff.mp h
      dsimp only at h
      split at h
      · cases h
      · cases h
        exact ⟨c₂, c₃, hmark.trans (hdeclaration.trans (Cursor.advances_misc h₂)),
          Cursor.exists_of_looksAt hlooks, hroot⟩
    · obtain ⟨_, hnone, h⟩ := Except.bind_eq_ok_iff.mp h
      cases hnone
      obtain ⟨c₃, -, h⟩ := Except.bind_eq_ok_iff.mp h
      dsimp only at h
      split at h
      · cases h
      · cases h

/-- The elements of a document are found between two places of its text. -/
theorem exists_spans (h : Document.parse text = .ok document) : ∃ c c',
    (Cursor.ofText text).Advances c ∧ Cursor.Spans c c' document.root.elements := by
  obtain ⟨c, c', hadvances, hopened, hroot⟩ := exists_rootElement h
  exact ⟨c, c', hadvances, Cursor.spans_rootElement hopened hroot⟩

/-- The start of an element is the position of a `<`. -/
theorem exists_start (h : Document.parse text = .ok document) {e : Element}
    (he : e ∈ document.root.elements) : ∃ before rest, text = before ++ '<' :: rest ∧
      e.tag.start = Position.start.after before := by
  obtain ⟨c, c', hadvances, hspans⟩ := exists_spans h
  obtain ⟨place, hplace⟩ := hspans.places e he
  obtain ⟨rest, hrest⟩ := hplace.opened
  obtain ⟨before, htext, hposition⟩ := hadvances.trans hplace.before
  exact ⟨before, rest, hrest ▸ htext, hplace.start.trans hposition⟩

/-- In document order the starts of elements rise. -/
theorem pairwise_start (h : Document.parse text = .ok document) :
    document.root.elements.Pairwise fun x y => x.tag.start < y.tag.start := by
  obtain ⟨c, c', -, hspans⟩ := exists_spans h
  exact hspans.ordered

end Document

end ProjectFile.Xml
