import ProjectFile.Proofs.Xml.Scan
import ProjectFile.Xml.Document

/-!
Start tags as they are written, with names that have no prefix. Attributes stand behind white space
and in either kind of quotes; one named `xmlns` declares the default namespace instead. A start tag
is read as just what it says, wherever it stands.
-/

namespace ProjectFile.Xml

/-- A text that a document can hold, with a spelling of it. -/
structure Spelled where
  value : Text
  raw : Text
  legal : IsLegal value
  spells : Spells value raw

/-- An attribute as it is written: white space, a name, and a value in quotes. -/
structure WrittenAttribute where
  gap : Text
  name : Text
  mark : Char
  content : Spelled
  gap_ne_nil : gap ≠ []
  isSpaces : IsSpaces gap
  isLocalName : IsLocalName name
  isQuote : IsQuote mark

namespace WrittenAttribute

def text (a : WrittenAttribute) : Text :=
  a.gap ++ a.name ++ '=' :: a.mark :: (a.content.raw ++ [a.mark])

/-- Whether the attribute declares the default namespace. -/
def declares (a : WrittenAttribute) : Bool := a.name == ("xmlns" : Text)

/-- What the attributes declare. -/
def scope (as : List WrittenAttribute) : Scope :=
  (as.filter declares).map fun a => ([], a.content.value)

/-- The attributes that declare nothing. -/
def attributes (as : List WrittenAttribute) : List Attribute :=
  (as.filter (!·.declares)).map fun a => ⟨none, a.name, a.content.value⟩

/-- The attributes that declare nothing, as they are read from a position on. -/
def pending : Position → List WrittenAttribute → List PendingAttribute
  | _, [] => []
  | p, a :: as =>
    if a.declares then pending (p.after a.text) as
    else ⟨⟨[], a.name⟩, a.content.value, p.after a.gap⟩ :: pending (p.after a.text) as

end WrittenAttribute

/-- A start tag as it is written, up to what closes it. -/
structure WrittenTag where
  name : Text
  attributes : List WrittenAttribute
  gap : Text
  isLocalName : IsLocalName name
  isSpaces : IsSpaces gap
  nodup : (attributes.map WrittenAttribute.name).Nodup
  allowed : ∀ a ∈ attributes, a.declares = true →
    a.content.value ≠ xmlUri ∧ a.content.value ≠ xmlnsUri

/-- What closes a start tag, with or without content behind it. -/
def closing (hasContent : Bool) : Text := if hasContent then ">" else "/>"

/-- The namespace of names without a prefix. -/
def Scope.default? (scope : Scope) : Option Text :=
  (scope.find? fun entry => entry.1 == ([] : Text)).map Prod.snd

namespace WrittenTag

def text (o : WrittenTag) (hasContent : Bool) : Text :=
  '<' :: o.name ++ o.attributes.flatMap WrittenAttribute.text ++ o.gap ++ closing hasContent

/-- The scope in the element. -/
def scope (o : WrittenTag) (outer : Scope) : Scope := WrittenAttribute.scope o.attributes ++ outer

/-- What the start tag says at a position. -/
def tag (o : WrittenTag) (outer : Scope) (p : Position) : Tag :=
  ⟨o.name, (o.scope outer).default?, WrittenAttribute.attributes o.attributes, p⟩

end WrittenTag

theorem Spelled.isPlain (s : Spelled) : IsPlain s.raw := s.spells.isPlain s.legal

theorem Spelled.pieces_eq (s : Spelled) (p : Position) : ∃ ps, pieces p s.raw = .ok ps ∧
    attributeValue ps = s.value ∧ ∀ afterReference, lineEnds afterReference ps = s.value := by
  obtain ⟨ps, hps, hvalue, hplain⟩ := pieces_of_spells s.spells s.legal p
  exact ⟨ps, hps, (attributeValue_eq_map hplain).trans hvalue,
    fun afterReference => (lineEnds_eq_map hplain afterReference).trans hvalue⟩

theorem Scope.resolve_nil (scope : Scope) (place : Position) :
    scope.resolve [] place = .ok scope.default? := by
  unfold resolve default?
  cases scope.find? fun entry => entry.1 == ([] : Text) <;> rfl

theorem IsLocalName.exists_cons {name : Text} (h : IsLocalName name) :
    ∃ c rest, name = c :: rest ∧ isNameStart c = true := by
  obtain ⟨hstart, -, -⟩ := h
  cases name with
  | nil => cases hstart
  | cons c rest => exact ⟨c, rest, rfl, hstart⟩

theorem ne_of_isNameStart {c x : Char} (hc : isNameStart c = true) (hx : isNameStart x = false) :
    c ≠ x := by
  rintro rfl
  rw [hc] at hx
  cases hx

theorem not_isSpace_of_isNameStart {c : Char} (hc : isNameStart c = true) : isSpace c = false := by
  refine Bool.eq_false_iff.mpr fun hspace => ?_
  simp only [isSpace, Bool.or_eq_true, beq_iff_eq] at hspace
  rcases hspace with ((rfl | rfl) | rfl) | rfl <;> exact absurd hc (by decide)

namespace StartTag

/-- An attribute is recorded, or what it declares. -/
theorem add_eq (tag : StartTag) (a : WrittenAttribute) (place valuePlace : Position)
    (h : a.declares = true → a.content.value ≠ xmlUri ∧ a.content.value ≠ xmlnsUri) :
    tag.add ⟨⟨[], a.name⟩, place, a.content.raw, valuePlace⟩ = .ok (
      if a.declares then { tag with declared := tag.declared ++ [([], a.content.value)] }
      else { tag with
        attributes := tag.attributes ++ [⟨⟨[], a.name⟩, a.content.value, place⟩] }) := by
  obtain ⟨ps, hps, hvalue, -⟩ := a.content.pieces_eq valuePlace
  unfold add
  simp only [hps, hvalue, bind, Except.bind]
  rw [if_neg (by decide)]
  cases hdeclares : a.declares with
  | false =>
    have hname : a.name ≠ ("xmlns" : Text) := beq_eq_false_iff_ne.mp hdeclares
    rw [if_neg hname]
    rfl
  | true =>
    have hname : a.name = ("xmlns" : Text) := beq_iff_eq.mp hdeclares
    obtain ⟨hxml, hxmlns⟩ := h hdeclares
    rw [if_pos hname, declareDefault, if_neg hxml, if_neg hxmlns]
    rfl

theorem resolveAttributes_pending (scope : Scope) (p : Position) {as : List WrittenAttribute}
    (done : List Attribute) (hdone : ∀ b ∈ done, b.name ∉ as.map WrittenAttribute.name)
    (hnodup : (as.map WrittenAttribute.name).Nodup) :
    resolveAttributes scope done (WrittenAttribute.pending p as) =
      .ok (done ++ WrittenAttribute.attributes as) := by
  induction as generalizing p done with
  | nil => simp [WrittenAttribute.pending, WrittenAttribute.attributes, resolveAttributes]
  | cons a as ih =>
    obtain ⟨hfresh, hnodup⟩ := List.nodup_cons.mp hnodup
    have hrest : ∀ b ∈ done, b.name ∉ as.map WrittenAttribute.name := fun b hb hmem =>
      hdone b hb (List.mem_cons_of_mem _ hmem)
    rw [WrittenAttribute.pending]
    cases hdeclares : a.declares with
    | true =>
      rw [if_pos rfl, ih _ _ hrest hnodup]
      simp [WrittenAttribute.attributes, hdeclares]
    | false =>
      let resolved : Attribute := ⟨none, a.name, a.content.value⟩
      have hnew : (done.any fun b => b.name == resolved.name && b.space? == resolved.space?) =
          false := by
        refine List.any_eq_false.mpr fun b hb heq => hdone b hb ?_
        have hname : b.name = a.name := beq_iff_eq.mp (Bool.and_eq_true_iff.mp heq).1
        simp [hname]
      have hstep : ∀ b ∈ done ++ [resolved], b.name ∉ as.map WrittenAttribute.name := by
        intro b hb
        rcases List.mem_append.mp hb with hb | hb
        · exact hrest b hb
        · obtain rfl := List.mem_singleton.mp hb
          exact hfresh
      have hresolve (place : Position) :
          resolveAttribute scope ⟨⟨[], a.name⟩, a.content.value, place⟩ = .ok resolved := by
        simp [resolveAttribute, resolved]
      rw [if_neg (by simp), resolveAttributes, hresolve]
      simp only [bind, Except.bind]
      rw [hnew, if_neg (by simp), ih _ _ hstep hnodup]
      simp [WrittenAttribute.attributes, hdeclares, resolved]

end StartTag

namespace WrittenAttribute

variable (a : WrittenAttribute)

/-- The text of an attribute opens with white space, behind which its name opens. -/
theorem text_append (t : Text) :
    a.text ++ t = a.gap ++ (a.name ++ '=' :: a.mark :: (a.content.raw ++ a.mark :: t)) := by
  simp [text]

theorem text_ne_nil : a.text ≠ [] := by
  simp [text, a.gap_ne_nil]

end WrittenAttribute

theorem breaks_gap {gap t : Text} (hgap : IsSpaces gap) (ht : gap = [] → Breaks isNameChar t) :
    Breaks isNameChar (gap ++ t) := by
  cases gap with
  | nil => exact ht rfl
  | cons x gap =>
    refine breaks_cons ?_ (gap ++ t)
    have hspace : isSpace x = true := hgap x (by simp)
    simp only [isSpace, Bool.or_eq_true, beq_iff_eq] at hspace
    rcases hspace with ((rfl | rfl) | rfl) | rfl <;> decide

namespace Cursor

variable (cut : Error) (tag : StartTag) (p : Position)

theorem tagRest_closing (n : Nat) {gap : Text} (hgap : IsSpaces gap) (hasContent : Bool)
    (t : Text) : tagRest cut (n + 1) tag ⟨p, gap ++ (closing hasContent ++ t)⟩ =
      .ok (tag, hasContent, ⟨p.after (gap ++ closing hasContent), t⟩) := by
  have hne : ∃ x u, gap ++ (closing hasContent ++ t) = x :: u := by
    cases gap with
    | nil => cases hasContent <;> exact ⟨_, _, rfl⟩
    | cons x gap => exact ⟨x, _, rfl⟩
  have hbreaks : Breaks isSpace (closing hasContent ++ t) := by
    cases hasContent <;> exact breaks_cons (by decide) _
  have hskip := skipSpaces_append p hgap hbreaks
  obtain ⟨x, u, hxu⟩ := hne
  rw [hxu] at hskip ⊢
  rw [tagRest]
  simp only [hskip, Position.after_append]
  cases hasContent <;> rfl

theorem tagRest_cons (n : Nat) {gap : Text} (hne : gap ≠ []) (hgap : IsSpaces gap) {x : Char}
    (hx : isNameStart x = true) (t : Text) : tagRest cut (n + 1) tag ⟨p, gap ++ x :: t⟩ =
      (do
        let (raw, rest) ← (Cursor.mk (p.after gap) (x :: t)).rawAttribute
        let tag ← tag.add raw
        tagRest cut n tag rest) := by
  have hskip := skipSpaces_append p hgap (breaks_cons (not_isSpace_of_isNameStart hx) t)
  have hslash : x ≠ '/' := ne_of_isNameStart hx (by decide)
  have hclose : x ≠ '>' := ne_of_isNameStart hx (by decide)
  obtain ⟨y, gap, rfl⟩ := List.exists_cons_of_ne_nil hne
  have hspace : (Cursor.mk p (y :: gap ++ x :: t)).atSpace = true := hgap y (by simp)
  rw [List.cons_append] at hskip hspace ⊢
  rw [tagRest]
  simp only [hskip, hspace, if_true]

/-- The next attribute of a start tag is read and recorded. -/
theorem tagRest_attribute (n : Nat) (a : WrittenAttribute) (t : Text)
    (hallowed : a.declares = true → a.content.value ≠ xmlUri ∧ a.content.value ≠ xmlnsUri) :
    tagRest cut (n + 1) tag ⟨p, a.text ++ t⟩ = tagRest cut n (
      if a.declares then { tag with declared := tag.declared ++ [([], a.content.value)] }
      else { tag with
        attributes := tag.attributes ++ [⟨⟨[], a.name⟩, a.content.value, p.after a.gap⟩] })
      ⟨p.after a.text, t⟩ := by
  obtain ⟨x, name, hname, hstart⟩ := a.isLocalName.exists_cons
  obtain ⟨place, hraw⟩ := rawAttribute_append (p.after a.gap) a.isLocalName a.isQuote
    a.content.isPlain t
  have hafter : (p.after a.gap).after (a.name ++ '=' :: a.mark :: (a.content.raw ++ [a.mark])) =
      p.after a.text := by
    rw [← Position.after_append, WrittenAttribute.text, List.append_assoc]
  have hcons : a.name ++ '=' :: a.mark :: (a.content.raw ++ a.mark :: t) =
      x :: (name ++ '=' :: a.mark :: (a.content.raw ++ a.mark :: t)) := by
    rw [hname, List.cons_append]
  rw [a.text_append, hcons, tagRest_cons cut tag p n a.gap_ne_nil a.isSpaces hstart, ← hcons, hraw]
  simp only [bind, Except.bind]
  rw [tag.add_eq a _ _ hallowed, hafter]

theorem tagRest_attributes (hasContent : Bool) {gap : Text} (hgap : IsSpaces gap) (t : Text)
    {as : List WrittenAttribute} {n : Nat} (hn : as.length < n) (hallowed : ∀ a ∈ as,
      a.declares = true → a.content.value ≠ xmlUri ∧ a.content.value ≠ xmlnsUri) :
    tagRest cut n tag ⟨p, as.flatMap WrittenAttribute.text ++ (gap ++ (closing hasContent ++ t))⟩ =
      .ok ({ tag with
          declared := tag.declared ++ WrittenAttribute.scope as,
          attributes := tag.attributes ++ WrittenAttribute.pending p as },
        hasContent,
        ⟨p.after (as.flatMap WrittenAttribute.text ++ (gap ++ closing hasContent)), t⟩) := by
  induction as generalizing n tag p with
  | nil =>
    obtain ⟨n, rfl⟩ := Nat.exists_eq_succ_of_ne_zero (Nat.ne_of_gt hn)
    simpa [WrittenAttribute.scope, WrittenAttribute.pending] using
      tagRest_closing cut tag p n hgap hasContent t
  | cons a as ih =>
    obtain ⟨n, rfl⟩ := Nat.exists_eq_succ_of_ne_zero (Nat.ne_of_gt (Nat.zero_lt_of_lt hn))
    have hn : as.length < n := Nat.lt_of_succ_lt_succ hn
    rw [List.flatMap_cons, List.append_assoc,
      tagRest_attribute cut tag p n a _ (hallowed a (by simp)),
      ih _ _ hn fun b hb => hallowed b (by simp [hb])]
    cases hdeclares : a.declares <;>
      simp [WrittenAttribute.scope, WrittenAttribute.pending, hdeclares, Position.after_append]

/-- A start tag is read as what it says, up to what closes it. -/
theorem startTag_append (o : WrittenTag) (hasContent : Bool) (t : Text) : ∃ start,
    startTag cut ⟨p, o.text hasContent ++ t⟩ =
      .ok (start, hasContent, ⟨p.after (o.text hasContent), t⟩) ∧
    start.name = ⟨[], o.name⟩ ∧ (∀ outer, start.scope outer = o.scope outer) ∧
    ∀ outer, start.finish outer = .ok (o.tag outer p) := by
  let inside := (p.next '<').after o.name
  let start : StartTag := ⟨⟨[], o.name⟩, p, WrittenAttribute.scope o.attributes,
    WrittenAttribute.pending inside o.attributes⟩
  let behind := o.attributes.flatMap WrittenAttribute.text ++ (o.gap ++ (closing hasContent ++ t))
  have htext : o.text hasContent ++ t = '<' :: (o.name ++ behind) := by
    simp [WrittenTag.text, behind]
  have hbreaks : Breaks isNameChar behind := by
    cases hattributes : o.attributes with
    | nil =>
      simp only [behind, hattributes, List.flatMap_nil, List.nil_append]
      refine breaks_gap o.isSpaces fun _ => ?_
      cases hasContent <;> exact breaks_cons (by decide) _
    | cons a as =>
      simp only [behind, hattributes, List.flatMap_cons, List.append_assoc, a.text_append]
      exact breaks_gap a.isSpaces fun hnil => absurd hnil a.gap_ne_nil
  have hlength : o.attributes.length < behind.length := by
    have hle := Text.length_le_length_flatMap WrittenAttribute.text_ne_nil o.attributes
    have hpos : 0 < (closing hasContent).length := by cases hasContent <;> decide
    simp only [behind, List.length_append]
    omega
  refine ⟨start, ?_, rfl, fun outer => rfl, fun outer => ?_⟩
  · have hdrop : (Cursor.mk p ('<' :: (o.name ++ behind))).drop 1 =
      ⟨p.next '<', o.name ++ behind⟩ := rfl
    have hopened : StartTag.opened ⟨[], o.name⟩ p = .ok ⟨⟨[], o.name⟩, p, [], []⟩ := rfl
    rw [htext, startTag, hdrop, qname_append _ o.isLocalName hbreaks]
    simp only [bind, Except.bind, hopened]
    rw [tagRest_attributes cut _ _ hasContent o.isSpaces t hlength o.allowed]
    simp [start, WrittenTag.text, inside, Position.after_append]
  · have hresolve := StartTag.resolveAttributes_pending (o.scope outer) inside [] (by simp) o.nodup
    have hscope : start.scope outer = o.scope outer := rfl
    have hpending : start.attributes = WrittenAttribute.pending inside o.attributes := rfl
    unfold StartTag.finish
    simp only [hscope, hpending, hresolve, bind, Except.bind]
    simp only [start, Scope.resolve_nil, WrittenTag.tag, List.nil_append]

end Cursor

end ProjectFile.Xml
