import ProjectFile.Xml.Reference

/-!
Spellings of a text in a document. A character is written literally, or as a reference by its code
point or by a name; markup characters, quotes, tabs and line ends are never literal. Whatever the
spelling, the pieces of what is written are the characters of the text, and neither the rules for
attribute values nor those for line ends change any of them.
-/

namespace ProjectFile.Xml

/-- Whether a text is a number in digits, the highest one first. -/
def IsNumeral (base n : Nat) (t : Text) : Prop :=
  t ≠ [] ∧ ∃ ds : List Nat, t.map Text.hexDigit? = ds.map some ∧ (∀ d ∈ ds, d < base) ∧
    ds.foldl (fun n d => n * base + d) 0 = n

/-- The names that stand for characters in every document. -/
def entities : List (Text × Char) :=
  [("amp", '&'), ("lt", '<'), ("gt", '>'), ("quot", '"'), ("apos", '\'')]

/-- Whether a character is only written as a reference. -/
def isMarkup (c : Char) : Bool :=
  c == '&' || c == '<' || c == '>' || c == '"' || c == '\'' || c == '\t' || c == '\n' || c == '\r'

/-- Whether a document can hold a text. -/
def IsLegal (t : Text) : Prop := ∀ c ∈ t, isLegal c = true

instance (t : Text) : Decidable (IsLegal t) :=
  decidable_of_iff (t.all isLegal = true) (by simp [IsLegal])

/-- Whether a text can be written as it is. -/
def IsLiteral (t : Text) : Prop := ∀ c ∈ t, isMarkup c = false

instance (t : Text) : Decidable (IsLiteral t) :=
  decidable_of_iff ((t.all fun c => !isMarkup c) = true) (by simp [IsLiteral])

/-- The spellings of a character. -/
inductive SpellsChar : Char → Text → Prop
  | literal {c : Char} (plain : isMarkup c = false) : SpellsChar c [c]
  | entity (name : Text) {c : Char} (named : (name, c) ∈ entities) :
      SpellsChar c ('&' :: name ++ [';'])
  | decimal (digits : Text) {c : Char} (numeral : IsNumeral 10 c.toNat digits) :
      SpellsChar c ('&' :: '#' :: digits ++ [';'])
  | hexadecimal (digits : Text) {c : Char} (numeral : IsNumeral 16 c.toNat digits) :
      SpellsChar c ('&' :: '#' :: 'x' :: digits ++ [';'])

/-- The spellings of a text. -/
inductive Spells : Text → Text → Prop
  | nil : Spells [] []
  | cons {c : Char} {value s raw : Text} (first : SpellsChar c s) (rest : Spells value raw) :
      Spells (c :: value) (s ++ raw)

theorem Spells.append {s t rawS rawT : Text} (hs : Spells s rawS) (ht : Spells t rawT) :
    Spells (s ++ t) (rawS ++ rawT) := by
  induction hs with
  | nil => exact ht
  | cons first _ ih =>
    rw [List.cons_append, List.append_assoc]
    exact .cons first ih

/-- A text without markup characters is a spelling of itself. -/
theorem Spells.literal {t : Text} (h : IsLiteral t) : Spells t t := by
  induction t with
  | nil => exact .nil
  | cons c t ih => exact .cons (.literal (h c (by simp))) (ih fun d hd => h d (by simp [hd]))

/-- Every character has a spelling. -/
theorem exists_spellsChar (c : Char) : ∃ s, SpellsChar c s := by
  by_cases hplain : isMarkup c = false
  · exact ⟨[c], .literal hplain⟩
  have hmarkup : isMarkup c = true := Bool.of_not_eq_false hplain
  simp only [isMarkup, Bool.or_eq_true, beq_iff_eq] at hmarkup
  rcases hmarkup with ((((((rfl | rfl) | rfl) | rfl) | rfl) | rfl) | rfl) | rfl
  · exact ⟨_, .entity "amp" (by decide)⟩
  · exact ⟨_, .entity "lt" (by decide)⟩
  · exact ⟨_, .entity "gt" (by decide)⟩
  · exact ⟨_, .entity "quot" (by decide)⟩
  · exact ⟨_, .entity "apos" (by decide)⟩
  · exact ⟨_, .decimal "9" ⟨by decide, [9], by decide, by decide, by decide⟩⟩
  · exact ⟨_, .decimal "10" ⟨by decide, [1, 0], by decide, by decide, by decide⟩⟩
  · exact ⟨_, .decimal "13" ⟨by decide, [1, 3], by decide, by decide, by decide⟩⟩

/-- Every text has a spelling. -/
theorem exists_spells (t : Text) : ∃ raw, Spells t raw := by
  induction t with
  | nil => exact ⟨[], .nil⟩
  | cons c t ih =>
    obtain ⟨s, hs⟩ := exists_spellsChar c
    obtain ⟨raw, hraw⟩ := ih
    exact ⟨s ++ raw, .cons hs hraw⟩

theorem SpellsChar.ne_nil {c : Char} {s : Text} (h : SpellsChar c s) : s ≠ [] := by
  cases h <;> simp

theorem Spells.eq_nil {value raw : Text} (h : Spells value raw) (hraw : raw = []) : value = [] := by
  cases h with
  | nil => rfl
  | cons first _ => exact absurd (List.append_eq_nil_iff.mp hraw).1 first.ne_nil

theorem IsNumeral.hexDigit? {base n : Nat} {t : Text} (h : IsNumeral base n t) {c : Char}
    (hc : c ∈ t) : ∃ d, Text.hexDigit? c = some d := by
  obtain ⟨-, ds, hdigits, -⟩ := h
  have hmem : Text.hexDigit? c ∈ ds.map some := hdigits ▸ List.mem_map_of_mem hc
  obtain ⟨d, -, hd⟩ := List.mem_map.mp hmem
  exact ⟨d, hd.symm⟩

theorem IsNumeral.not_mem {base n : Nat} {t : Text} (h : IsNumeral base n t) {x : Char}
    (hx : Text.hexDigit? x = none) : x ∉ t := by
  intro hmem
  obtain ⟨d, hd⟩ := h.hexDigit? hmem
  rw [hx] at hd
  cases hd

/-! What a reference stands for -/

namespace Reference

theorem foldlM_digits {base : Nat} {t : Text} {ds : List Nat}
    (hdigits : t.map Text.hexDigit? = ds.map some) (hlt : ∀ d ∈ ds, d < base) (n : Nat) :
    t.foldlM (fun n c => (Text.hexDigit? c).bind fun d =>
      if d < base then some (n * base + d) else none) n =
      some (ds.foldl (fun n d => n * base + d) n) := by
  induction t generalizing ds n with
  | nil =>
    obtain rfl : ds = [] := by simpa using hdigits.symm
    rfl
  | cons c t ih =>
    cases ds with
    | nil => cases hdigits
    | cons d ds =>
      obtain ⟨hc, hdigits⟩ := List.cons.inj hdigits
      rw [List.foldlM_cons, hc, Option.bind_some, if_pos (hlt d (by simp)), List.foldl_cons]
      exact ih hdigits (fun d' hd => hlt d' (by simp [hd])) _

theorem number?_of_isNumeral {base n : Nat} {t : Text} (h : IsNumeral base n t) :
    number? base t = some n := by
  obtain ⟨hne, ds, hdigits, hlt, rfl⟩ := h
  rw [← foldlM_digits hdigits hlt 0]
  cases t with
  | nil => exact absurd rfl hne
  | cons c t => rfl

theorem ofCodePoint?_toNat {c : Char} (h : isLegal c = true) :
    ofCodePoint? c.toNat = some (.character c) := by
  have hlt : c.toNat < 0x100000000 := c.val.toNat_lt_size
  have hvalid : c.toNat.isValidChar := c.valid
  unfold ofCodePoint?
  rw [if_neg (by omega), if_pos hvalid]
  simp [h]

theorem ofBody?_entity {name : Text} {c : Char} (h : (name, c) ∈ entities) :
    ofBody? name = some (.character c) := by
  simp only [entities, List.mem_cons, Prod.mk.injEq, List.not_mem_nil, or_false] at h
  rcases h with ⟨rfl, rfl⟩ | ⟨rfl, rfl⟩ | ⟨rfl, rfl⟩ | ⟨rfl, rfl⟩ | ⟨rfl, rfl⟩ <;> decide

theorem ofBody?_decimal {c : Char} {digits : Text} (h : IsNumeral 10 c.toNat digits)
    (hlegal : isLegal c = true) : ofBody? ('#' :: digits) = some (.character c) := by
  have hx : ∀ rest, digits ≠ 'x' :: rest := by
    rintro rest rfl
    exact h.not_mem (x := 'x') (by decide) (by simp)
  rw [ofBody?, number?_of_isNumeral h, Option.bind_some, ofCodePoint?_toNat hlegal]
  exact hx

theorem ofBody?_hexadecimal {c : Char} {digits : Text} (h : IsNumeral 16 c.toNat digits)
    (hlegal : isLegal c = true) : ofBody? ('#' :: 'x' :: digits) = some (.character c) := by
  rw [ofBody?, number?_of_isNumeral h, Option.bind_some, ofCodePoint?_toNat hlegal]

end Reference

/-! The pieces of what is written -/

def Piece.char : Piece → Char
  | .literal c => c
  | .referred c => c

theorem piecesFrom_open {body : Text} (h : ';' ∉ body) (p start : Position) (acc rest : Text) :
    piecesFrom p (some (start, acc)) (body ++ ';' :: rest) =
      piecesFrom (p.after body) (some (start, body.reverse ++ acc)) (';' :: rest) := by
  induction body generalizing p acc with
  | nil => rfl
  | cons c body ih =>
    have hc : c ≠ ';' := fun he => h (by simp [he])
    rw [List.cons_append, piecesFrom, if_neg hc, ih fun hmem => h (by simp [hmem])]
    simp

theorem piecesFrom_reference {body : Text} {c : Char} (hbody : ';' ∉ body)
    (h : Reference.ofBody? body = some (.character c)) (p : Position) (rest : Text) :
    piecesFrom p none ('&' :: body ++ [';'] ++ rest) =
      (piecesFrom (p.after ('&' :: body ++ [';'])) none rest).map (.referred c :: ·) := by
  rw [List.cons_append, List.cons_append, List.append_assoc, List.singleton_append, piecesFrom,
    if_pos rfl, piecesFrom_open hbody, piecesFrom, if_pos rfl]
  simp only [List.append_nil, List.reverse_reverse, h]
  simp [Position.after_append]

/-- One character of a text is one piece of what is written, a literal one if it stands for
itself. -/
theorem piecesFrom_spellsChar {c : Char} {s : Text} (h : SpellsChar c s)
    (hlegal : isLegal c = true) (p : Position) (rest : Text) : ∃ piece : Piece,
    piecesFrom p none (s ++ rest) = (piecesFrom (p.after s) none rest).map (piece :: ·) ∧
      piece.char = c ∧ ∀ x, piece = .literal x → isMarkup x = false := by
  cases h with
  | literal plain =>
    refine ⟨.literal c, ?_, rfl, ?_⟩
    · have hc : c ≠ '&' := by
        rintro rfl
        cases plain
      rw [List.singleton_append, piecesFrom, if_neg hc]
      rfl
    · rintro x ⟨⟩
      exact plain
  | entity name named =>
    have hbody : ';' ∉ name := by
      simp only [entities, List.mem_cons, Prod.mk.injEq, List.not_mem_nil, or_false] at named
      rcases named with ⟨rfl, -⟩ | ⟨rfl, -⟩ | ⟨rfl, -⟩ | ⟨rfl, -⟩ | ⟨rfl, -⟩ <;> decide
    exact ⟨.referred c, piecesFrom_reference hbody (Reference.ofBody?_entity named) p rest, rfl,
      by simp⟩
  | decimal digits numeral =>
    have hdigits : ';' ∉ digits := numeral.not_mem (by decide)
    have hbody : ';' ∉ '#' :: digits := by simpa using hdigits
    exact ⟨.referred c,
      piecesFrom_reference hbody (Reference.ofBody?_decimal numeral hlegal) p rest, rfl, by simp⟩
  | hexadecimal digits numeral =>
    have hdigits : ';' ∉ digits := numeral.not_mem (by decide)
    have hbody : ';' ∉ '#' :: 'x' :: digits := by simpa using hdigits
    exact ⟨.referred c,
      piecesFrom_reference hbody (Reference.ofBody?_hexadecimal numeral hlegal) p rest, rfl,
      by simp⟩

theorem pieces_of_spells {value raw : Text} (h : Spells value raw)
    (hlegal : IsLegal value) (p : Position) : ∃ ps, pieces p raw = .ok ps ∧
      ps.map Piece.char = value ∧ ∀ x, .literal x ∈ ps → isMarkup x = false := by
  unfold pieces
  induction h generalizing p with
  | nil => exact ⟨[], rfl, rfl, by simp⟩
  | @cons c value s raw first rest ih =>
    obtain ⟨piece, hpiece, hchar, hplain⟩ := piecesFrom_spellsChar first (hlegal c (by simp)) p raw
    obtain ⟨ps, hps, hvalue, hrest⟩ := ih (fun d hd => hlegal d (by simp [hd])) (p.after s)
    refine ⟨piece :: ps, by rw [hpiece, hps]; rfl, by rw [List.map_cons, hchar, hvalue],
      fun x hx => ?_⟩
    rcases List.mem_cons.mp hx with hx | hx
    · exact hplain x hx.symm
    · exact hrest x hx

theorem attributeValue_eq_map {ps : List Piece} (h : ∀ x, .literal x ∈ ps → isMarkup x = false) :
    attributeValue ps = ps.map Piece.char := by
  fun_induction attributeValue ps with
  | case1 => rfl
  | case2 c ps ih => rw [ih fun x hx => h x (by simp [hx])]; rfl
  | case3 ps ih => exact absurd (h '\r' (by simp)) (by decide)
  | case4 c ps hline ih =>
    have hc : ¬ (c = '\t' || c = '\n' || c = '\r') = true := by
      have hplain := h c (by simp)
      simp only [isMarkup, Bool.or_eq_false_iff, beq_eq_false_iff_ne] at hplain
      simp [hplain]
    rw [if_neg hc, ih fun x hx => h x (by simp [hx])]
    rfl

theorem lineEnds_eq_map {ps : List Piece} (h : ∀ x, .literal x ∈ ps → isMarkup x = false)
    (afterReference : Bool) : lineEnds afterReference ps = ps.map Piece.char := by
  fun_induction lineEnds afterReference ps with
  | case1 => rfl
  | case2 _ c ps ih => rw [ih fun x hx => h x (by simp [hx])]; rfl
  | case3 => exact absurd (h '\r' (by simp)) (by decide)
  | case4 => exact absurd (h '\r' (by simp)) (by decide)
  | case5 => exact absurd (h '\r' (by simp)) (by decide)
  | case6 => exact absurd (h '\r' (by simp)) (by decide)
  | case7 _ c ps _ _ _ _ ih => rw [ih fun x hx => h x (by simp [hx])]; rfl

/-! The characters of what is written -/

theorem toNat_of_hexDigit? {c : Char} {d : Nat} (h : Text.hexDigit? c = some d) :
    48 ≤ c.toNat ∧ c.toNat ≤ 102 := by
  have hle (a b : Char) : a ≤ b ↔ a.toNat ≤ b.toNat := UInt32.le_iff_toNat_le
  unfold Text.hexDigit? at h
  split at h
  · next hdigit =>
    have hdigit : 48 ≤ c.toNat ∧ c.toNat ≤ 57 := by
      simpa [Char.isDigit, UInt32.le_iff_toNat_le] using hdigit
    omega
  split at h
  · next hletter =>
    have hletter : 97 ≤ c.toNat ∧ c.toNat ≤ 102 := by simpa [hle] using hletter
    omega
  split at h
  · next hletter =>
    have hletter : 65 ≤ c.toNat ∧ c.toNat ≤ 70 := by simpa [hle] using hletter
    omega
  · cases h

theorem not_isMarkup_of_hexDigit? {c : Char} {d : Nat} (h : Text.hexDigit? c = some d) :
    isMarkup c = false := by
  refine Bool.eq_false_iff.mpr fun hmarkup => ?_
  simp only [isMarkup, Bool.or_eq_true, beq_iff_eq] at hmarkup
  rcases hmarkup with ((((((rfl | rfl) | rfl) | rfl) | rfl) | rfl) | rfl) | rfl <;> cases h

theorem isLegal_of_hexDigit? {c : Char} {d : Nat} (h : Text.hexDigit? c = some d) :
    isLegal c = true := by
  obtain ⟨hlow, hhigh⟩ := toNat_of_hexDigit? h
  unfold isLegal
  rw [if_neg (by omega)]
  simp only [bne_iff_ne, ne_eq, Bool.and_eq_true]
  omega

/-- What is written is legal, and of markup characters it has only those that open a reference. -/
def IsPlain (raw : Text) : Prop :=
  ∀ c ∈ raw, isLegal c = true ∧ (isMarkup c = true → c = '&')

instance (raw : Text) : Decidable (IsPlain raw) :=
  decidable_of_iff ((raw.all fun c => isLegal c && (!isMarkup c || c == '&')) = true)
    (by simp [IsPlain, ← Bool.not_eq_true, ← Decidable.imp_iff_not_or])

theorem isPlain_of_isNumeral {base n : Nat} {t : Text} (h : IsNumeral base n t) : IsPlain t := by
  intro c hc
  obtain ⟨d, hd⟩ := h.hexDigit? hc
  exact ⟨isLegal_of_hexDigit? hd, by simp [not_isMarkup_of_hexDigit? hd]⟩

theorem IsPlain.append {s t : Text} (hs : IsPlain s) (ht : IsPlain t) : IsPlain (s ++ t) :=
  List.forall_mem_append.mpr ⟨hs, ht⟩

theorem SpellsChar.isPlain {c : Char} {s : Text} (h : SpellsChar c s) (hlegal : isLegal c = true) :
    IsPlain s := by
  cases h with
  | literal plain => simpa [IsPlain, plain] using hlegal
  | entity name named =>
    simp only [entities, List.mem_cons, Prod.mk.injEq, List.not_mem_nil, or_false] at named
    rcases named with ⟨rfl, -⟩ | ⟨rfl, -⟩ | ⟨rfl, -⟩ | ⟨rfl, -⟩ | ⟨rfl, -⟩ <;> decide
  | decimal digits numeral =>
    have hopen : IsPlain "&#" := by decide
    have hclose : IsPlain ";" := by decide
    exact (hopen.append (isPlain_of_isNumeral numeral)).append hclose
  | hexadecimal digits numeral =>
    have hopen : IsPlain "&#x" := by decide
    have hclose : IsPlain ";" := by decide
    exact (hopen.append (isPlain_of_isNumeral numeral)).append hclose

theorem Spells.isPlain {value raw : Text} (h : Spells value raw)
    (hlegal : IsLegal value) : IsPlain raw := by
  induction h with
  | nil => simp [IsPlain]
  | cons first _ ih =>
    exact (first.isPlain (hlegal _ (by simp))).append (ih fun c hc => hlegal c (by simp [hc]))

end ProjectFile.Xml
