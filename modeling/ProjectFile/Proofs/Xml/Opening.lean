import ProjectFile.Proofs.Xml.Lines
import ProjectFile.Proofs.Xml.Starts

/-!
Where start tags stand. The tag of each element of a parsed document is read from the `<` at which
the element is said to start: a name stands behind it, with a prefix or without, and what else is in
the tag follows. The induction is on the steps in which content is read.
-/

namespace ProjectFile.Xml

/-- A name is written as it is, or behind a prefix and a colon. -/
theorem QName.eq_of_ofText? {t : Text} {q : QName} (h : ofText? t = some q) :
    ∃ label, t = label ++ q.name ∧ (label = [] ∨ ∃ part, label = part ++ [':']) := by
  have hjoin := Text.join_splitOn ':' t
  unfold ofText? at h
  split at h
  · next name hsplit =>
    rw [hsplit] at hjoin
    split at h
    · cases h
      exact ⟨[], by simpa using hjoin.symm, .inl rfl⟩
    · cases h
  · next label name hsplit =>
    rw [hsplit] at hjoin
    split at h
    · cases h
      exact ⟨label ++ [':'], by simpa [Text.join_cons_cons] using hjoin.symm, .inr ⟨label, rfl⟩⟩
    · cases h
  · cases h

namespace Cursor

/-- Whether a tag is read from a cursor, which is at a `<`. -/
structure Opens (c : Cursor) (tag : Tag) : Prop where
  opened : ∃ rest, c.rest = '<' :: rest
  read : ∃ cut start hasContent after scope,
    c.startTag cut = .ok (start, hasContent, after) ∧ start.finish scope = .ok tag

variable {c c' : Cursor}

theorem Opens.start_eq {tag : Tag} (h : c.Opens tag) : tag.start = c.position := by
  obtain ⟨_, start, _, _, _, hstart, htag⟩ := h.read
  exact (StartTag.finish_eq_ok htag).2.trans (advances_startTag hstart).2

/-- The name of the tag is what stands behind the `<`, up to a character that no name contains. -/
theorem Opens.exists_name {tag : Tag} (h : c.Opens tag) : ∃ label rest,
    c.rest = '<' :: (label ++ tag.name ++ rest) ∧ (label = [] ∨ ∃ part, label = part ++ [':']) ∧
      ∀ x ∈ rest.head?, isNameChar x = false := by
  obtain ⟨following, hrest⟩ := h.opened
  obtain ⟨_, start, _, _, _, hstart, htag⟩ := h.read
  obtain ⟨_, hqname, -, -⟩ := startTag_eq_ok hstart
  have hdrop : (c.drop 1).rest = following := by
    change c.rest.drop 1 = _
    rw [hrest]
    rfl
  unfold qname at hqname
  dsimp only at hqname
  split at hqname
  · next q hq =>
    obtain rfl : q = start.name := (Prod.mk.inj (Except.ok.inj hqname)).1
    obtain ⟨label, hrun, hlabel⟩ := QName.eq_of_ofText? hq
    rw [hdrop] at hrun
    refine ⟨label, following.dropWhile isNameChar, ?_, hlabel, fun x hx => ?_⟩
    · rw [hrest, (StartTag.finish_eq_ok htag).1, ← hrun, List.takeWhile_append_dropWhile]
    · have hhead := List.head?_dropWhile_not isNameChar following
      rw [hx] at hhead
      exact hhead
  · cases hqname

/-- Whether all elements have their tags from cursors that are further on. -/
def OpensAll (c : Cursor) (es : List Element) : Prop :=
  ∀ e ∈ es, ∃ place, c.Advances place ∧ place.Opens e.tag

namespace OpensAll

variable {es fs : List Element}

theorem nil (c : Cursor) : c.OpensAll [] := fun _ he => (List.not_mem_nil he).elim

theorem append (h : c.OpensAll es) (hadvances : c.Advances c') (h' : c'.OpensAll fs) :
    c.OpensAll (es ++ fs) := by
  intro e he
  rcases List.mem_append.mp he with he | he
  · exact h e he
  · obtain ⟨place, hplace, hopens⟩ := h' e he
    exact ⟨place, hadvances.trans hplace, hopens⟩

/-- An element has its tag from where it is read, and those in it from further on. -/
theorem element {cut : Error} {start : StartTag} {hasContent : Bool} {scope : Scope} {tag : Tag}
    {children : List Node} (hopened : ∃ rest, c.rest = '<' :: rest)
    (hstart : c.startTag cut = .ok (start, hasContent, c')) (htag : start.finish scope = .ok tag)
    (h : c'.OpensAll (Node.elementsOf children)) :
    c.OpensAll (Node.element tag children).elements := by
  have hfirst : c.OpensAll [⟨tag, children⟩] := by
    intro e he
    obtain rfl := List.mem_singleton.mp he
    exact ⟨c, .refl c, hopened, _, _, _, _, _, hstart, htag⟩
  exact hfirst.append ((c.advances_drop 1).trans (advances_startTag hstart).1) h

end OpensAll

/-- The elements in what is read have their tags from cursors in between. -/
theorem opensAll_content {n : Nat} {scope : Scope} {opened : QName} {nodes : List Node}
    (h : content n scope opened c = .ok (nodes, c')) : c.OpensAll (Node.elementsOf nodes) := by
  induction n generalizing c c' scope opened nodes with
  | zero => cases h
  | succ n ih =>
    cases Step.of_content h with
    | done _ => exact .nil c
    | aside hnode hmore =>
      rw [Node.elementsOf, hnode.2]
      exact (OpensAll.nil c).append hnode.1 (ih hmore)
    | @element _ _ _ children _ inside after _ hopened hstart htag hchildren hmore =>
      have hinside : inside.Advances after ∧ inside.OpensAll (Node.elementsOf children) := by
        rcases hchildren with heq | hchildren
        · cases heq
          exact ⟨.refl _, .nil _⟩
        · exact ⟨(spans_content hchildren).advances, ih hchildren⟩
      have hafter : c.Advances after :=
        ((c.advances_drop 1).trans (advances_startTag hstart).1).trans hinside.1
      exact (OpensAll.element hopened hstart htag hinside.2).append hafter (ih hmore)

theorem opensAll_rootElement {root : Element} (hopened : ∃ rest, c.rest = '<' :: rest)
    (h : c.rootElement = .ok (root, c')) : c.OpensAll root.elements := by
  obtain ⟨start, hasContent, inside, hstart, htag, hchildren⟩ := rootElement_eq_ok h
  refine OpensAll.element hopened hstart htag ?_
  rcases hchildren with heq | hchildren
  · rw [(Prod.mk.inj heq).1]
    exact .nil inside
  · exact opensAll_content hchildren

end Cursor

/-- Whether a text has a tag at a position: a `<` stands there, behind it the name of the tag with a
prefix or without, and this is where the tag is read from. -/
def HasTagAt (text : Text) (place : Position) (tag : Tag) : Prop :=
  ∃ before label rest, text = before ++ '<' :: (label ++ tag.name ++ rest) ∧
    place = Position.start.after before ∧
    (label = [] ∨ ∃ part, label = part ++ [':']) ∧ (∀ c ∈ rest.head?, isNameChar c = false) ∧
    (Cursor.mk place ('<' :: (label ++ tag.name ++ rest))).Opens tag

theorem HasTagAt.character? {text : Text} {place : Position} {tag : Tag}
    (h : HasTagAt text place tag) : place.character? text = some '<' := by
  obtain ⟨before, label, rest, rfl, rfl, -⟩ := h
  exact Position.character?_after (by decide) before _

/-- A parsed text has the tag of each element of the document at the start of the element. -/
theorem Document.hasTagAt_start {text : Text} {document : Document}
    (h : Document.parse text = .ok document) {e : Element} (he : e ∈ document.root.elements) :
    HasTagAt text e.tag.start e.tag := by
  obtain ⟨c, c', hadvances, hopened, hroot⟩ := exists_rootElement h
  obtain ⟨place, hplace, hopens⟩ := Cursor.opensAll_rootElement hopened hroot e he
  obtain ⟨before, htext, hposition⟩ := hadvances.trans hplace
  obtain ⟨label, rest, hrest, hlabel, hhead⟩ := hopens.exists_name
  refine ⟨before, label, rest, hrest ▸ htext, hopens.start_eq.trans hposition, hlabel, hhead, ?_⟩
  rw [hopens.start_eq, ← hrest]
  exact hopens

end ProjectFile.Xml
