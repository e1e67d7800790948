import ProjectFile.Log.Basic
import ProjectFile.Xml.Document

/-!
Readers go forward. What a reader leaves is an end of the text that it was given, and it has counted
the rows and columns of everything before that. Positions are in the order of rows, and in a row in
that of columns, so whatever is read later starts at a greater one.
-/

namespace ProjectFile.Xml

namespace Position

instance : LT Position := ⟨fun p q => p.row < q.row ∨ p.row = q.row ∧ p.column < q.column⟩

instance (p q : Position) : Decidable (p < q) :=
  inferInstanceAs (Decidable (p.row < q.row ∨ p.row = q.row ∧ p.column < q.column))

theorem lt_irrefl (p : Position) : ¬ p < p := by
  rintro (h | ⟨-, h⟩)
  · exact Nat.lt_irrefl _ h
  · exact Nat.lt_irrefl _ h

theorem lt_trans {p q r : Position} (hpq : p < q) (hqr : q < r) : p < r := by
  rcases hpq with hrow | ⟨hrow, hcolumn⟩
  · rcases hqr with hrow' | ⟨hrow', -⟩
    · exact .inl (Nat.lt_trans hrow hrow')
    · exact .inl (hrow' ▸ hrow)
  · rcases hqr with hrow' | ⟨hrow', hcolumn'⟩
    · exact .inl (hrow ▸ hrow')
    · exact .inr ⟨hrow.trans hrow', Nat.lt_trans hcolumn hcolumn'⟩

theorem lt_next (p : Position) (c : Char) : p < p.next c := by
  unfold next
  split
  · exact .inl (Nat.lt_succ_self _)
  · exact .inr ⟨rfl, Nat.lt_succ_self _⟩

theorem after_eq_or_lt (p : Position) (t : Text) : p.after t = p ∨ p < p.after t := by
  induction t generalizing p with
  | nil => exact .inl rfl
  | cons c t ih =>
    rw [after_cons]
    refine .inr ?_
    rcases ih (p.next c) with heq | hlt
    · rw [heq]
      exact lt_next p c
    · exact lt_trans (lt_next p c) hlt

end Position

namespace Cursor

/-- Whether a cursor is further on in the text than another one, or at the same place. -/
def Advances (c c' : Cursor) : Prop :=
  ∃ t, c.rest = t ++ c'.rest ∧ c'.position = c.position.after t

namespace Advances

variable {c c' c'' : Cursor} {p : Position}

theorem refl (c : Cursor) : c.Advances c := ⟨[], rfl, rfl⟩

theorem trans (h : c.Advances c') (h' : c'.Advances c'') : c.Advances c'' := by
  obtain ⟨t, hrest, hposition⟩ := h
  obtain ⟨t', hrest', hposition'⟩ := h'
  refine ⟨t ++ t', ?_, ?_⟩
  · rw [hrest, hrest', List.append_assoc]
  · rw [hposition', hposition, Position.after_append]

theorem lt_of_lt (h : c.Advances c') (hp : p < c.position) : p < c'.position := by
  obtain ⟨t, -, hposition⟩ := h
  rw [hposition]
  rcases c.position.after_eq_or_lt t with heq | hlt
  · rwa [heq]
  · exact Position.lt_trans hp hlt

end Advances

variable {c c' : Cursor}

theorem advances_drop (c : Cursor) (n : Nat) : c.Advances (c.drop n) :=
  ⟨c.rest.take n, (List.take_append_drop n c.rest).symm, rfl⟩

theorem advances_skipWhile (c : Cursor) (p : Char → Bool) : c.Advances (c.skipWhile p) :=
  ⟨c.rest.takeWhile p, List.takeWhile_append_dropWhile.symm, rfl⟩

theorem advances_skipSpaces (c : Cursor) : c.Advances c.skipSpaces := c.advances_skipWhile isSpace

theorem lt_drop_one {x : Char} {rest : Text} (h : c.rest = x :: rest) :
    c.position < (c.drop 1).position := by
  change _ < c.position.after (c.rest.take 1)
  rw [h]
  exact Position.lt_next _ x

theorem exists_of_looksAt {x : Char} {t : Text} (h : c.looksAt (x :: t) = true) :
    ∃ rest, c.rest = x :: rest := by
  obtain ⟨rest, hrest⟩ := List.isPrefixOf_iff_prefix.mp h
  exact ⟨t ++ rest, hrest.symm⟩

/-! Readers of a few characters -/

theorem advances_expect {x : Char} (h : c.expect x = .ok c') : c.Advances c' := by
  unfold expect at h
  split at h
  · cases h
  · split at h
    · cases h
      exact c.advances_drop 1
    · cases h

theorem advances_expectText {t : Text} (h : c.expectText t = .ok c') : c.Advances c' := by
  unfold expectText at h
  split at h
  · cases h
    exact c.advances_drop t.length
  · cases h

theorem advances_takeUntil {stop : Text → Bool} {t : Text} (h : c.takeUntil stop = .ok (t, c')) :
    c.Advances c' := by
  unfold takeUntil at h
  dsimp only at h
  split at h
  · cases h
  · cases h
    exact c.advances_drop _

theorem advances_qname {name : QName} (h : c.qname = .ok (name, c')) : c.Advances c' := by
  unfold qname at h
  dsimp only at h
  split at h
  · cases h
    exact c.advances_drop _
  · cases h

theorem advances_plainName {name : Text} (h : c.plainName = .ok (name, c')) : c.Advances c' := by
  unfold plainName at h
  dsimp only at h
  split at h
  · cases h
    exact c.advances_drop _
  · cases h

theorem advances_quote {mark : Char} (h : c.quote = .ok (mark, c')) : c.Advances c' := by
  unfold quote at h
  split at h
  · cases h
  · split at h
    · cases h
      exact c.advances_drop 1
    · cases h

theorem advances_spaceInDeclaration (h : c.spaceInDeclaration = .ok c') : c.Advances c' := by
  unfold spaceInDeclaration at h
  split at h
  · cases h
    exact .refl c
  · split at h
    · cases h
      exact c.advances_skipSpaces
    · split at h
      · cases h
        exact .refl c
      · cases h

theorem advances_rawAttribute {raw : RawAttribute} (h : c.rawAttribute = .ok (raw, c')) :
    c.Advances c' := by
  obtain ⟨⟨name, afterName⟩, hname, h⟩ := Except.bind_eq_ok_iff.mp h
  obtain ⟨afterEquals, hequals, h⟩ := Except.bind_eq_ok_iff.mp h
  obtain ⟨⟨mark, inside⟩, hmark, h⟩ := Except.bind_eq_ok_iff.mp h
  obtain ⟨⟨value, afterValue⟩, hvalue, h⟩ := Except.bind_eq_ok_iff.mp h
  obtain ⟨rest, hrest, h⟩ := Except.bind_eq_ok_iff.mp h
  cases h
  have hinside : c.Advances inside :=
    ((advances_qname hname).trans (afterName.advances_skipSpaces.trans
      (advances_expect hequals))).trans (afterEquals.advances_skipSpaces.trans
        (advances_quote hmark))
  exact hinside.trans ((advances_takeUntil hvalue).trans (advances_expect hrest))

/-! Readers of markup -/

theorem advances_declaration (h : c.declaration = .ok c') : c.Advances c' := by
  have hend {c₄ : Cursor} (h : (if c₄.looksAt "standalone" = true then
      c₄.rawAttribute >>= fun x => Except.ok x.2 >>= fun c => c.skipSpaces.expectText "?>"
      else Except.ok c₄ >>= fun c => c.skipSpaces.expectText "?>") = .ok c') :
      c₄.Advances c' := by
    split at h
    · obtain ⟨⟨_, c₅⟩, h₅, h⟩ := Except.bind_eq_ok_iff.mp h
      exact (advances_rawAttribute h₅).trans (c₅.advances_skipSpaces.trans (advances_expectText h))
    · exact c₄.advances_skipSpaces.trans (advances_expectText h)
  obtain ⟨c₁, h₁, h⟩ := Except.bind_eq_ok_iff.mp h
  split at h
  · cases h
  · obtain ⟨⟨_, c₂⟩, h₂, h⟩ := Except.bind_eq_ok_iff.mp h
    obtain ⟨c₃, h₃, h⟩ := Except.bind_eq_ok_iff.mp h
    have hversion : c.Advances c₃ :=
      ((c.advances_drop 5).trans (advances_spaceInDeclaration h₁)).trans
        ((advances_rawAttribute h₂).trans (advances_spaceInDeclaration h₃))
    refine hversion.trans ?_
    dsimp only at h
    split at h
    · obtain ⟨⟨_, c₄⟩, h₄, h⟩ := Except.bind_eq_ok_iff.mp h
      obtain ⟨c₅, h₅, h⟩ := Except.bind_eq_ok_iff.mp h
      exact ((advances_rawAttribute h₄).trans (advances_spaceInDeclaration h₅)).trans (hend h)
    · exact hend h

theorem advances_comment {node : Node} (h : c.comment = .ok (node, c')) :
    c.Advances c' ∧ node.elements = [] := by
  obtain ⟨⟨content, inside⟩, hcontent, h⟩ := Except.bind_eq_ok_iff.mp h
  obtain ⟨rest, hrest, h⟩ := Except.bind_eq_ok_iff.mp h
  split at h
  · cases h
  · cases h
    exact ⟨(c.advances_drop 4).trans
      ((advances_takeUntil hcontent).trans (advances_expectText hrest)), rfl⟩

theorem advances_instruction {node : Node} (h : c.instruction = .ok (node, c')) :
    c.Advances c' ∧ node.elements = [] := by
  unfold instruction at h
  split at h
  · cases h
  · obtain ⟨⟨target, c₁⟩, h₁, h⟩ := Except.bind_eq_ok_iff.mp h
    obtain ⟨⟨content, c₂⟩, h₂, h⟩ := Except.bind_eq_ok_iff.mp h
    obtain ⟨rest, hrest, h⟩ := Except.bind_eq_ok_iff.mp h
    cases h
    have htarget : c.Advances c₁ := (c.advances_drop 2).trans (advances_plainName h₁)
    exact ⟨htarget.trans (c₁.advances_skipSpaces.trans
      ((advances_takeUntil h₂).trans (advances_expectText hrest))), rfl⟩

theorem advances_rawSection {node : Node} (h : c.rawSection = .ok (node, c')) :
    c.Advances c' ∧ node.elements = [] := by
  obtain ⟨⟨content, inside⟩, hcontent, h⟩ := Except.bind_eq_ok_iff.mp h
  obtain ⟨rest, hrest, h⟩ := Except.bind_eq_ok_iff.mp h
  cases h
  exact ⟨(c.advances_drop 9).trans
    ((advances_takeUntil hcontent).trans (advances_expectText hrest)), rfl⟩

theorem advances_textRun {node : Node} (h : c.textRun = .ok (node, c')) :
    c.Advances c' ∧ node.elements = [] := by
  obtain ⟨⟨run, rest⟩, hrun, h⟩ := Except.bind_eq_ok_iff.mp h
  dsimp only at h
  split at h
  · cases h
  · obtain ⟨ps, -, h⟩ := Except.bind_eq_ok_iff.mp h
    cases h
    exact ⟨advances_takeUntil hrun, rfl⟩

theorem advances_endTag {name : QName} (h : c.endTag = .ok (name, c')) : c.Advances c' := by
  obtain ⟨⟨closed, c₁⟩, h₁, h⟩ := Except.bind_eq_ok_iff.mp h
  obtain ⟨rest, hrest, h⟩ := Except.bind_eq_ok_iff.mp h
  cases h
  exact ((c.advances_drop 2).trans (advances_qname h₁)).trans
    (c₁.advances_skipSpaces.trans (advances_expect hrest))

theorem advances_misc {n : Nat} (h : c.misc n = .ok c') : c.Advances c' := by
  induction n generalizing c with
  | zero =>
    cases h
    exact c.advances_skipSpaces
  | succ n ih =>
    unfold misc at h
    dsimp only at h
    refine c.advances_skipSpaces.trans ?_
    split at h
    · obtain ⟨⟨_, rest⟩, hcomment, h⟩ := Except.bind_eq_ok_iff.mp h
      exact (advances_comment hcomment).1.trans (ih h)
    · split at h
      · obtain ⟨⟨_, rest⟩, hinstruction, h⟩ := Except.bind_eq_ok_iff.mp h
        exact (advances_instruction hinstruction).1.trans (ih h)
      · cases h
        exact .refl _

end Cursor

/-! Start tags -/

namespace StartTag

variable {tag tag' : StartTag}

/-- An attribute neither renames nor moves the tag it is in. -/
theorem add_eq_ok {raw : RawAttribute} (h : tag.add raw = .ok tag') :
    tag'.name = tag.name ∧ tag'.start = tag.start := by
  obtain ⟨ps, -, h⟩ := Except.bind_eq_ok_iff.mp h
  unfold declarePrefix declareDefault at h
  dsimp only at h
  split at h
  · iterate 4 split at h <;> try cases h
    split at h
    · cases h
      exact ⟨rfl, rfl⟩
    · cases h
      exact ⟨rfl, rfl⟩
  · split at h
    · split at h <;> try cases h
      split at h
      · cases h
      · cases h
        exact ⟨rfl, rfl⟩
    · cases h
      exact ⟨rfl, rfl⟩

theorem finish_eq_ok {outer : Scope} {finished : Tag} (h : tag.finish outer = .ok finished) :
    finished.name = tag.name.name ∧ finished.start = tag.start := by
  obtain ⟨attributes, -, h⟩ := Except.bind_eq_ok_iff.mp h
  obtain ⟨space?, -, h⟩ := Except.bind_eq_ok_iff.mp h
  cases h
  exact ⟨rfl, rfl⟩

end StartTag

namespace Cursor

variable {c c' : Cursor}

theorem advances_tagRest {cut : Error} {n : Nat} {tag tag' : StartTag} {hasContent : Bool}
    (h : tagRest cut n tag c = .ok (tag', hasContent, c')) :
    c.Advances c' ∧ tag'.name = tag.name ∧ tag'.start = tag.start := by
  induction n generalizing c tag with
  | zero => cases h
  | succ n ih =>
    unfold tagRest at h
    dsimp only at h
    split at h
    · cases h
    · split at h
      · cases h
      · obtain ⟨rest, hrest, h⟩ := Except.bind_eq_ok_iff.mp h
        cases h
        exact ⟨c.advances_skipSpaces.trans
          ((c.skipSpaces.advances_drop 1).trans (advances_expect hrest)), rfl, rfl⟩
      · cases h
        exact ⟨c.advances_skipSpaces.trans (c.skipSpaces.advances_drop 1), rfl, rfl⟩
      · split at h
        · obtain ⟨⟨raw, rest⟩, hraw, h⟩ := Except.bind_eq_ok_iff.mp h
          obtain ⟨tag₁, hadd, h⟩ := Except.bind_eq_ok_iff.mp h
          obtain ⟨hrest, hname, hstart⟩ := ih h
          obtain ⟨hname', hstart'⟩ := StartTag.add_eq_ok hadd
          exact ⟨c.advances_skipSpaces.trans ((advances_rawAttribute hraw).trans hrest),
            hname.trans hname', hstart.trans hstart'⟩
        · cases h

/-- A start tag has the name that stands behind its `<`, and keeps the position of this. -/
theorem startTag_eq_ok {cut : Error} {tag : StartTag} {hasContent : Bool}
    (h : c.startTag cut = .ok (tag, hasContent, c')) : ∃ rest,
    (c.drop 1).qname = .ok (tag.name, rest) ∧ rest.Advances c' ∧ tag.start = c.position := by
  obtain ⟨⟨name, rest⟩, hname, h⟩ := Except.bind_eq_ok_iff.mp h
  obtain ⟨opened, hopened, h⟩ := Except.bind_eq_ok_iff.mp h
  obtain ⟨hrest, htag, hstart⟩ := advances_tagRest h
  unfold StartTag.opened at hopened
  split at hopened
  · cases hopened
  · cases hopened
    exact ⟨rest, htag ▸ hname, hrest, hstart⟩

theorem advances_startTag {cut : Error} {tag : StartTag} {hasContent : Bool}
    (h : c.startTag cut = .ok (tag, hasContent, c')) :
    (c.drop 1).Advances c' ∧ tag.start = c.position := by
  obtain ⟨rest, hname, hrest, hstart⟩ := startTag_eq_ok h
  exact ⟨(advances_qname hname).trans hrest, hstart⟩

end Cursor

end ProjectFile.Xml
