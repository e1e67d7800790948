import ProjectFile.Proofs.Xml.Spelling
import ProjectFile.Xml.Cursor

/-!
What the cursor reads off a text that begins with what is looked for: white space, a name, a quoted
value, a run up to a character that ends it. Each reader takes just that and stands behind it.
-/

namespace ProjectFile.Xml

/-- Whether a text does not go on with a character of a class. -/
def Breaks (f : Char → Bool) (t : Text) : Prop := ∀ c ∈ t.head?, f c = false

def IsSpaces (t : Text) : Prop := ∀ c ∈ t, isSpace c = true

instance (t : Text) : Decidable (IsSpaces t) :=
  decidable_of_iff (t.all isSpace = true) (by simp [IsSpaces])

/-- Whether a text is a name without a prefix. -/
def IsLocalName (t : Text) : Prop :=
  QName.ofText?.starts t = true ∧ (∀ c ∈ t, isNameChar c = true) ∧ ':' ∉ t

instance (t : Text) : Decidable (IsLocalName t) :=
  decidable_of_iff ((QName.ofText?.starts t && t.all isNameChar && !t.contains ':') = true)
    (by simp [IsLocalName, and_assoc])

/-- Whether a character is a quotation mark. -/
def IsQuote (mark : Char) : Prop := mark = '"' ∨ mark = '\''

instance (mark : Char) : Decidable (IsQuote mark) := inferInstanceAs (Decidable (_ ∨ _))

theorem breaks_cons {f : Char → Bool} {c : Char} (h : f c = false) (t : Text) :
    Breaks f (c :: t) := by
  simpa [Breaks] using h

theorem takeWhile_append_of_breaks {f : Char → Bool} {s t : Text} (hs : ∀ c ∈ s, f c = true)
    (ht : Breaks f t) : (s ++ t).takeWhile f = s ∧ (s ++ t).dropWhile f = t := by
  induction s with
  | nil =>
    cases t with
    | nil => exact ⟨rfl, rfl⟩
    | cons c t =>
      have hc : f c = false := ht c rfl
      simp [hc]
  | cons c s ih =>
    obtain ⟨htake, hdrop⟩ := ih fun d hd => hs d (by simp [hd])
    simp [hs c (by simp), htake, hdrop]

namespace Cursor

variable {p : Position} {s t name gap : Text}

theorem drop_append (p : Position) (s t : Text) :
    (Cursor.mk p (s ++ t)).drop s.length = ⟨p.after s, t⟩ := by
  simp [drop]

theorem skipSpaces_append (p : Position) (hgap : IsSpaces gap) (ht : Breaks isSpace t) :
    (Cursor.mk p (gap ++ t)).skipSpaces = ⟨p.after gap, t⟩ := by
  obtain ⟨htake, hdrop⟩ := takeWhile_append_of_breaks hgap ht
  simp only [skipSpaces, skipWhile, htake, hdrop]

theorem skipSpaces_of_breaks (p : Position) (ht : Breaks isSpace t) :
    (Cursor.mk p t).skipSpaces = ⟨p, t⟩ :=
  skipSpaces_append p (show IsSpaces [] by decide) ht

theorem expect_cons (p : Position) (x : Char) (t : Text) :
    (Cursor.mk p (x :: t)).expect x = .ok ⟨p.next x, t⟩ := by
  simp [expect, drop]

theorem qname_append (p : Position) (hname : IsLocalName name) (ht : Breaks isNameChar t) :
    (Cursor.mk p (name ++ t)).qname = .ok (⟨[], name⟩, ⟨p.after name, t⟩) := by
  obtain ⟨hstart, hall, hcolon⟩ := hname
  have hq : QName.ofText? name = some ⟨[], name⟩ := by
    rw [QName.ofText?, Text.splitOn_of_not_mem hcolon]
    simp only [hstart, if_true]
  unfold qname
  simp only [(takeWhile_append_of_breaks hall ht).1, hq, drop_append]

theorem illegal?_eq_none (p : Position) (h : IsLegal s) : illegal? p s = none := by
  induction s generalizing p with
  | nil => rfl
  | cons c s ih =>
    rw [illegal?, if_pos (h c (by simp)), ih (p.next c) fun d hd => h d (by simp [hd])]

/-- A run is taken up to the first character that ends it. -/
theorem takeUntil_append (p : Position) (stop : Text → Bool) {f : Char → Bool}
    (hstop : ∀ c t, stop (c :: t) = f c) (hs : ∀ c ∈ s, isLegal c = true ∧ f c = false)
    (ht : ∀ c ∈ t.head?, f c = true) :
    (Cursor.mk p (s ++ t)).takeUntil stop = .ok (s, ⟨p.after s, t⟩) := by
  have hbeginning : beginning stop (s ++ t) = s := by
    induction s with
    | nil =>
      cases t with
      | nil => rfl
      | cons c t => rw [List.nil_append, beginning, hstop, ht c rfl, if_pos rfl]
    | cons c s ih =>
      have hc : f c = false := (hs c (by simp)).2
      rw [List.cons_append, beginning, hstop, hc, ih fun d hd => hs d (by simp [hd])]
      rfl
  unfold takeUntil
  simp only [hbeginning, illegal?_eq_none p fun c hc => (hs c hc).1, drop_append]

theorem quote_cons (p : Position) {mark : Char} (hmark : IsQuote mark) (t : Text) :
    (Cursor.mk p (mark :: t)).quote = .ok (mark, ⟨p.next mark, t⟩) := by
  rcases hmark with rfl | rfl <;> rfl

theorem rawAttribute_append (p : Position) (hname : IsLocalName name) {mark : Char}
    (hmark : IsQuote mark) {raw : Text} (hraw : IsPlain raw) (t : Text) :
    ∃ place, (Cursor.mk p (name ++ '=' :: mark :: (raw ++ mark :: t))).rawAttribute =
      .ok (⟨⟨[], name⟩, p, raw, place⟩,
        ⟨p.after (name ++ '=' :: mark :: (raw ++ [mark])), t⟩) := by
  let inside := ((p.after name).next '=').next mark
  have hspace : isSpace mark = false := by rcases hmark with rfl | rfl <;> rfl
  -- Neither quotation mark is ever literal, so the first one found is the closing one.
  have hends : ∀ c ∈ raw, isLegal c = true ∧ (mark == c || '<' == c) = false := by
    refine fun c hc => ⟨(hraw c hc).1, ?_⟩
    have hplain := (hraw c hc).2
    rcases hmark with rfl | rfl <;> grind [isMarkup]
  have hvalue := takeUntil_append (s := raw) (t := mark :: t) inside
    (fun t => t.startsWith [mark] || t.startsWith "<")
    (fun c t => by simp [Text.startsWith, List.isPrefixOf]) hends (by simp)
  refine ⟨inside, ?_⟩
  unfold rawAttribute
  rw [qname_append p hname (breaks_cons (by decide) _)]
  simp only [bind, Except.bind]
  rw [skipSpaces_of_breaks _ (breaks_cons (by decide) _), expect_cons]
  simp only
  rw [skipSpaces_of_breaks _ (breaks_cons hspace _), quote_cons _ hmark]
  simp only
  rw [hvalue]
  simp only
  rw [expect_cons]
  simp [Position.after_append, inside]

end Cursor

end ProjectFile.Xml
