import ProjectFile.Proofs.Xml.StartTag

/-!
Content as it is written: runs of text, elements and empty elements, one after another. What is
written is read back as it is, down to the position of each element, and so is a document of one
element with white space around it. The induction is on what is written; the content of an element
ends at its end tag.
-/

namespace ProjectFile.Xml

/-- A run of text between tags and what it says: a text that is spelled, or white space. -/
inductive IsRun : Text → Text → Prop
  | spelled (s : Spelled) (h : s.raw ≠ []) : IsRun s.value s.raw
  | spaces {gap : Text} (h : gap ≠ []) (hgap : IsSpaces gap) : IsRun (plainLineEnds gap) gap

def endTagText (name : Text) : Text := '<' :: '/' :: (name ++ ['>'])

/-- Whether a text says some content at a position, in the scope of the element around it. -/
inductive Writes : Scope → Position → List Node → Text → Prop
  | nil (scope : Scope) (p : Position) : Writes scope p [] []
  | run {scope : Scope} {p : Position} {content raw t : Text} {nodes : List Node}
      (first : IsRun content raw) (next : ∀ c ∈ t.head?, c = '<')
      (rest : Writes scope (p.after raw) nodes t) :
      Writes scope p (.text content :: nodes) (raw ++ t)
  | empty {scope : Scope} {p : Position} {t : Text} {nodes : List Node} (o : WrittenTag)
      (rest : Writes scope (p.after (o.text false)) nodes t) :
      Writes scope p (.element (o.tag scope p) [] :: nodes) (o.text false ++ t)
  | element {scope : Scope} {p : Position} {inner t : Text} {children nodes : List Node}
      (o : WrittenTag) (inside : Writes (o.scope scope) (p.after (o.text true)) children inner)
      (rest : Writes scope (p.after (o.text true ++ inner ++ endTagText o.name)) nodes t) :
      Writes scope p (.element (o.tag scope p) children :: nodes)
        (o.text true ++ inner ++ endTagText o.name ++ t)

/-! Runs -/

theorem piecesFrom_of_not_mem {t : Text} (h : '&' ∉ t) (p : Position) :
    pieces p t = .ok (t.map .literal) := by
  unfold pieces
  induction t generalizing p with
  | nil => rfl
  | cons c t ih =>
    have hc : c ≠ '&' := fun he => h (by simp [he])
    rw [piecesFrom, if_neg hc, ih fun hmem => h (by simp [hmem])]
    rfl

theorem mem_of_occursIn {part t : Text} (h : Text.occursIn part t = true) {c : Char}
    (hc : c ∈ part) : c ∈ t := by
  induction t with
  | nil =>
    obtain rfl : part = [] := by simpa [Text.occursIn] using h
    cases hc
  | cons x t ih =>
    rw [Text.occursIn, Bool.or_eq_true] at h
    rcases h with h | h
    · exact (List.isPrefixOf_iff_prefix.mp h).subset hc
    · exact List.mem_cons_of_mem _ (ih h)

theorem IsRun.ne_nil {content raw : Text} (h : IsRun content raw) : raw ≠ [] := by
  cases h with
  | spelled s h => exact h
  | spaces h _ => exact h

theorem IsRun.chars {content raw : Text} (h : IsRun content raw) :
    ∀ c ∈ raw, isLegal c = true ∧ c ≠ '<' ∧ c ≠ '>' := by
  intro c hc
  cases h with
  | spelled s _ =>
    obtain ⟨hlegal, hplain⟩ := s.isPlain c hc
    refine ⟨hlegal, ?_, ?_⟩ <;>
    · rintro rfl
      exact absurd (hplain (by decide)) (by decide)
  | spaces _ hgap =>
    have hspace := hgap c hc
    simp only [isSpace, Bool.or_eq_true, beq_iff_eq] at hspace
    rcases hspace with ((rfl | rfl) | rfl) | rfl <;> decide

theorem IsRun.pieces_eq {content raw : Text} (h : IsRun content raw) (p : Position) :
    ∃ ps, pieces p raw = .ok ps ∧ lineEnds false ps = content := by
  cases h with
  | spelled s _ =>
    obtain ⟨ps, hps, -, hcontent⟩ := s.pieces_eq p
    exact ⟨ps, hps, hcontent false⟩
  | spaces _ hgap =>
    have hreference : '&' ∉ raw := fun hmem => absurd (hgap _ hmem) (by decide)
    exact ⟨_, piecesFrom_of_not_mem hreference p, rfl⟩

namespace Cursor

theorem textRun_append (p : Position) {content raw t : Text} (h : IsRun content raw)
    (ht : ∀ c ∈ t.head?, c = '<') :
    (Cursor.mk p (raw ++ t)).textRun = .ok (.text content, ⟨p.after raw, t⟩) := by
  obtain ⟨ps, hps, hcontent⟩ := h.pieces_eq p
  have htake := takeUntil_append p (s := raw) (t := t) (fun t => t.startsWith "<")
    (f := fun c => '<' == c) (fun c t => by simp [Text.startsWith, List.isPrefixOf])
    (fun c hc => ⟨(h.chars c hc).1, by simpa using (h.chars c hc).2.1.symm⟩)
    (fun c hc => by simp [ht c hc])
  have hsection : Text.occursIn "]]>" raw = false := Bool.eq_false_iff.mpr fun hoccurs =>
    (h.chars '>' (mem_of_occursIn hoccurs (by decide))).2.2 rfl
  unfold textRun
  rw [htake]
  simp only [bind, Except.bind, hsection, hps, hcontent, Bool.false_eq_true, if_false]

variable (n : Nat) (scope : Scope) (opened : QName) (p : Position)

theorem content_run {x : Char} (hx : x ≠ '<') (t : Text) :
    content (n + 1) scope opened ⟨p, x :: t⟩ = (do
      let (node, rest) ← (Cursor.mk p (x :: t)).textRun
      let (nodes, rest) ← content n scope opened rest
      .ok (node :: nodes, rest)) := by
  simp [content, hx]

theorem content_startTag {x : Char} (hx : isNameStart x = true) (t : Text) :
    content (n + 1) scope opened ⟨p, '<' :: x :: t⟩ = (do
      let (start, hasContent, rest) ← (Cursor.mk p ('<' :: x :: t)).startTag .unclosedRoot
      let tag ← start.finish scope
      let (children, rest) ←
        if hasContent then content n (start.scope scope) start.name rest else .ok ([], rest)
      let (nodes, rest) ← content n scope opened rest
      .ok (.element tag children :: nodes, rest)) := by
  have hslash : x ≠ '/' := ne_of_isNameStart hx (by decide)
  have hbang : x ≠ '!' := ne_of_isNameStart hx (by decide)
  have hquestion : x ≠ '?' := ne_of_isNameStart hx (by decide)
  simp [content, hslash, hbang, hquestion]

theorem content_endTag {name : Text} (hname : IsLocalName name) (t : Text) :
    content (n + 1) scope ⟨[], name⟩ ⟨p, endTagText name ++ t⟩ =
      .ok ([], ⟨p.after (endTagText name), t⟩) := by
  have hclosed : (Cursor.mk p (endTagText name ++ t)).endTag =
      .ok (⟨[], name⟩, ⟨p.after (endTagText name), t⟩) := by
    have hdrop : (Cursor.mk p (endTagText name ++ t)).drop 2 =
        ⟨(p.next '<').next '/', name ++ '>' :: t⟩ := by
      simp [endTagText, drop]
    rw [endTag, hdrop, qname_append _ hname (breaks_cons (by decide) t)]
    simp only [bind, Except.bind]
    rw [skipSpaces_of_breaks _ (breaks_cons (by decide) t), expect_cons]
    simp [endTagText, Position.after_append]
  simp only [endTagText, List.cons_append] at hclosed ⊢
  simp only [content, hclosed, bind, Except.bind, if_true]

end Cursor

theorem WrittenTag.exists_cons (o : WrittenTag) (hasContent : Bool) (t : Text) :
    ∃ x u, o.text hasContent ++ t = '<' :: x :: u ∧ isNameStart x = true := by
  obtain ⟨x, name, hname, hstart⟩ := o.isLocalName.exists_cons
  exact ⟨x, _, by rw [text, hname]; rfl, hstart⟩

namespace Cursor

variable (n : Nat) (scope : Scope) (opened : QName) (p : Position)

/-- A tag is read first, then what is in it, then what follows. -/
theorem content_tag (o : WrittenTag) (hasContent : Bool) (t : Text) :
    content (n + 1) scope opened ⟨p, o.text hasContent ++ t⟩ = (do
      let (children, rest) ←
        if hasContent then
          content n (o.scope scope) ⟨[], o.name⟩ ⟨p.after (o.text hasContent), t⟩
        else .ok ([], ⟨p.after (o.text hasContent), t⟩)
      let (nodes, rest) ← content n scope opened rest
      .ok (.element (o.tag scope p) children :: nodes, rest)) := by
  obtain ⟨x, u, hcons, hstart⟩ := o.exists_cons hasContent t
  obtain ⟨start, hread, hname, hscope, hfinish⟩ := startTag_append .unclosedRoot p o hasContent t
  rw [hcons, content_startTag n scope opened p hstart, ← hcons, hread]
  simp only [bind, Except.bind, hfinish, hscope, hname]

/-- Written content is read up to the end tag of the element around it. -/
theorem content_of_writes {t : Text} {nodes : List Node} (h : Writes scope p nodes t)
    (hn : t.length < n) {name : Text} (hname : IsLocalName name) (rest : Text) :
    content n scope ⟨[], name⟩ ⟨p, t ++ (endTagText name ++ rest)⟩ =
      .ok (nodes, ⟨p.after (t ++ endTagText name), rest⟩) := by
  induction h generalizing n name rest with
  | nil scope p =>
    obtain ⟨n, rfl⟩ := Nat.exists_eq_succ_of_ne_zero (Nat.ne_of_gt hn)
    exact content_endTag n scope p hname rest
  | @run scope p content raw t nodes first next _ ih =>
    obtain ⟨n, rfl⟩ := Nat.exists_eq_succ_of_ne_zero (Nat.ne_of_gt (Nat.zero_lt_of_lt hn))
    obtain ⟨x, raw', rfl⟩ := List.exists_cons_of_ne_nil first.ne_nil
    have hx : x ≠ '<' := (first.chars x (by simp)).2.1
    have hnext : ∀ c ∈ (t ++ (endTagText name ++ rest)).head?, c = '<' := by
      cases t with
      | nil => simp [endTagText]
      | cons c t => exact next
    have hn : t.length < n := by
      simp only [List.length_append, List.length_cons] at hn
      omega
    have hrun := textRun_append p first hnext
    rw [List.append_assoc]
    rw [List.cons_append] at hrun ⊢
    rw [content_run n scope _ p hx, hrun]
    simp only [bind, Except.bind, ih n hn hname rest]
    simp [Position.after_append]
  | @empty scope p t nodes o _ ih =>
    obtain ⟨n, rfl⟩ := Nat.exists_eq_succ_of_ne_zero (Nat.ne_of_gt (Nat.zero_lt_of_lt hn))
    have hn : t.length < n := by
      simp only [WrittenTag.text, List.length_append, List.length_cons] at hn
      omega
    rw [List.append_assoc, content_tag]
    simp only [bind, Except.bind, Bool.false_eq_true, if_false, ih n hn hname rest]
    simp [Position.after_append]
  | @element scope p inner t children nodes o _ _ ihInside ih =>
    obtain ⟨n, rfl⟩ := Nat.exists_eq_succ_of_ne_zero (Nat.ne_of_gt (Nat.zero_lt_of_lt hn))
    -- What is in the element is shorter than the element, so one bound does for both.
    have hn : inner.length < n ∧ t.length < n := by
      simp only [WrittenTag.text, List.length_append, List.length_cons] at hn
      omega
    have hinside := ihInside n hn.1 o.isLocalName (t ++ (endTagText name ++ rest))
    have hrest := ih n hn.2 hname rest
    simp only [List.append_assoc, Position.after_append] at hinside hrest ⊢
    rw [content_tag]
    simp only [bind, Except.bind, if_true, hinside, hrest]

theorem rootElement_of_writes {inner : Text} {children : List Node} (o : WrittenTag)
    (h : Writes (o.scope []) (p.after (o.text true)) children inner) (rest : Text) :
    rootElement ⟨p, o.text true ++ (inner ++ (endTagText o.name ++ rest))⟩ =
      .ok (⟨o.tag [] p, children⟩,
        ⟨p.after (o.text true ++ (inner ++ endTagText o.name)), rest⟩) := by
  obtain ⟨start, hread, hname, hscope, hfinish⟩ :=
    startTag_append .noRoot p o true (inner ++ (endTagText o.name ++ rest))
  have hn : inner.length < (inner ++ (endTagText o.name ++ rest)).length := by
    simp [endTagText]
  have hinside := content_of_writes _ _ _ h hn o.isLocalName rest
  rw [rootElement, hread]
  simp only [bind, Except.bind, hfinish, hscope, hname, if_true, hinside]
  simp [Position.after_append]

/-! Around the root element -/

theorem looksAt_of_ne {x y : Char} (h : y ≠ x) (t u : Text) :
    (Cursor.mk p (x :: t)).looksAt (y :: u) = false := by
  simp [looksAt, Text.startsWith, List.isPrefixOf, h]

theorem looksAt_tag {x y : Char} (hx : isNameStart x = true) (hy : isNameStart y = false)
    (t u : Text) : (Cursor.mk p ('<' :: x :: t)).looksAt ('<' :: y :: u) = false := by
  simp [looksAt, Text.startsWith, List.isPrefixOf, (ne_of_isNameStart hx hy).symm]

theorem misc_tag {gap : Text} (hgap : IsSpaces gap) {x : Char} (hx : isNameStart x = true)
    (t : Text) : misc n ⟨p, gap ++ '<' :: x :: t⟩ = .ok ⟨p.after gap, '<' :: x :: t⟩ := by
  have hbreaks : Breaks isSpace ('<' :: x :: t) := breaks_cons (by decide) (x :: t)
  have hskip := skipSpaces_append p hgap hbreaks
  cases n with
  | zero => rw [misc, hskip]
  | succ n =>
    have hcomment : (Cursor.mk (p.after gap) ('<' :: x :: t)).looksAt "<!--" = false :=
      looksAt_tag _ hx (by decide) t _
    have hinstruction : (Cursor.mk (p.after gap) ('<' :: x :: t)).looksAt "<?" = false :=
      looksAt_tag _ hx (by decide) t _
    simp only [misc, hskip, hcomment, hinstruction, Bool.false_eq_true, if_false]

theorem misc_end {gap : Text} (hgap : IsSpaces gap) : misc n ⟨p, gap⟩ = .ok ⟨p.after gap, []⟩ := by
  have hskip : (Cursor.mk p gap).skipSpaces = ⟨p.after gap, []⟩ := by
    have hskip := skipSpaces_append (t := []) p hgap (by simp [Breaks])
    rwa [List.append_nil] at hskip
  cases n with
  | zero => rw [misc, hskip]
  | succ n =>
    rw [misc, hskip]
    rfl

theorem looksAt_gap {gap : Text} (hgap : IsSpaces gap) {y : Char} (hy : isSpace y = false)
    {t u : Text} (ht : (Cursor.mk p t).looksAt (y :: u) = false) :
    (Cursor.mk p (gap ++ t)).looksAt (y :: u) = false := by
  cases gap with
  | nil => exact ht
  | cons x gap =>
    refine looksAt_of_ne p ?_ (gap ++ t) u
    rintro rfl
    rw [hgap y (by simp)] at hy
    cases hy

end Cursor

/-- A written element with white space around it is read as a document. -/
theorem Document.parse_of_writes {before inner behind : Text} {children : List Node}
    (o : WrittenTag) (hbefore : IsSpaces before) (hbehind : IsSpaces behind)
    (h : Writes (o.scope []) (Position.start.after (before ++ o.text true)) children inner) :
    Document.parse (before ++ (o.text true ++ (inner ++ (endTagText o.name ++ behind)))) =
      .ok ⟨⟨o.tag [] (Position.start.after before), children⟩⟩ := by
  obtain ⟨x, u, hcons, hx⟩ := o.exists_cons true (inner ++ (endTagText o.name ++ behind))
  rw [Position.after_append] at h
  have hroot := Cursor.rootElement_of_writes _ o h behind
  rw [hcons] at hroot ⊢
  have hmark : (Cursor.ofText (before ++ '<' :: x :: u)).looksAt ['\uFEFF'] = false :=
    Cursor.looksAt_gap _ hbefore (by decide) (Cursor.looksAt_of_ne _ (by decide) (x :: u) [])
  have hdeclaration : (Cursor.ofText (before ++ '<' :: x :: u)).looksAt "<?xml " = false :=
    Cursor.looksAt_gap _ hbefore (by decide) (Cursor.looksAt_tag _ hx (by decide) u _)
  have hdoctype : (Cursor.mk (Position.start.after before) ('<' :: x :: u)).looksAt "<!DOCTYPE" =
      false := Cursor.looksAt_tag _ hx (by decide) u _
  have htag : (Cursor.mk (Position.start.after before) ('<' :: x :: u)).looksAt "<" = true := by
    simp [Cursor.looksAt, Text.startsWith, List.isPrefixOf]
  unfold Document.parse
  simp only [hmark, hdeclaration, Bool.false_eq_true, if_false, bind, Except.bind]
  rw [Cursor.ofText, Cursor.misc_tag _ _ hbefore hx]
  simp only [hdoctype, htag, Bool.false_eq_true, if_false, if_true, hroot]
  rw [Cursor.misc_end _ _ hbehind]
  simp

/-- A spelled text is a run, unless nothing is written. -/
theorem exists_writes_spelled (scope : Scope) (p : Position) (s : Spelled) : ∃ nodes,
    Writes scope p nodes s.raw ∧ Node.contentOf nodes = s.value ∧
      nodes.filterMap Node.element? = [] := by
  by_cases hraw : s.raw = []
  · refine ⟨[], ?_, (s.spells.eq_nil hraw).symm, rfl⟩
    rw [hraw]
    exact .nil scope p
  · refine ⟨[.text s.value], ?_, ?_, rfl⟩
    · have hrun := Writes.run (.spelled s hraw) (by simp) (.nil scope (p.after s.raw))
      rwa [List.append_nil] at hrun
    · rw [Node.contentOf, Node.content, Node.contentOf, List.append_nil]

/-! The elements in what is written -/

/-- Whether a text says the elements at a position, with whatever text between them. -/
def Shows (scope : Scope) (p : Position) (es : List Element) (t : Text) : Prop :=
  ∃ nodes, Writes scope p nodes t ∧ nodes.filterMap Node.element? = es

namespace Shows

variable {scope : Scope} {p : Position} {es : List Element} {gap t : Text}

theorem nil (scope : Scope) (p : Position) : Shows scope p [] [] := ⟨[], .nil scope p, rfl⟩

theorem gap_append (hgap : IsSpaces gap) (next : ∀ c ∈ t.head?, c = '<')
    (h : Shows scope (p.after gap) es t) : Shows scope p es (gap ++ t) := by
  obtain ⟨nodes, hnodes, hes⟩ := h
  cases gap with
  | nil => exact ⟨nodes, hnodes, hes⟩
  | cons x gap => exact ⟨_, .run (.spaces (by simp) hgap) next hnodes, hes⟩

theorem spaces (hgap : IsSpaces gap) : Shows scope p [] gap := by
  have h := gap_append (t := []) hgap (by simp) (nil scope (p.after gap))
  rwa [List.append_nil] at h

theorem empty (hgap : IsSpaces gap) (o : WrittenTag)
    (h : Shows scope (p.after (gap ++ o.text false)) es t) :
    Shows scope p (⟨o.tag scope (p.after gap), []⟩ :: es) (gap ++ o.text false ++ t) := by
  rw [Position.after_append] at h
  obtain ⟨nodes, hnodes, rfl⟩ := h
  rw [List.append_assoc]
  exact gap_append hgap (by simp [WrittenTag.text]) ⟨_, .empty o hnodes, rfl⟩

theorem element (hgap : IsSpaces gap) (o : WrittenTag) {inner : Text} {children : List Node}
    (hinside : Writes (o.scope scope) (p.after (gap ++ o.text true)) children inner)
    (h : Shows scope (p.after (gap ++ o.text true ++ inner ++ endTagText o.name)) es t) :
    Shows scope p (⟨o.tag scope (p.after gap), children⟩ :: es)
      (gap ++ o.text true ++ inner ++ endTagText o.name ++ t) := by
  simp only [List.append_assoc, Position.after_append] at hinside h ⊢
  obtain ⟨nodes, hnodes, rfl⟩ := h
  refine gap_append hgap (by simp [WrittenTag.text])
    ⟨.element (o.tag scope (p.after gap)) children :: nodes, ?_, rfl⟩
  have helement : Writes scope (p.after gap)
      (.element (o.tag scope (p.after gap)) children :: nodes)
      (o.text true ++ inner ++ endTagText o.name ++ t) :=
    .element o hinside (by simpa only [List.append_assoc, Position.after_append] using hnodes)
  simpa only [List.append_assoc] using helement

end Shows

end ProjectFile.Xml
