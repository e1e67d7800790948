import ProjectFile.Proofs.Json.Grammar

/-!
The scanners take exactly the part that they are for: white space ends where something else stands,
a string at the first quote that is not escaped, and a number where nothing follows that a number
could go on with.
-/

namespace ProjectFile.Json

/-! White space and words -/

theorem skipSpaces_append {s : Text} (h : IsSpaces s) (t : Text) :
    skipSpaces (s ++ t) = skipSpaces t :=
  List.dropWhile_append_of_pos h

theorem skipSpaces_of_isSpaces {s : Text} (h : IsSpaces s) : skipSpaces s = [] := by
  have happend := skipSpaces_append h []
  rwa [List.append_nil] at happend

theorem skipSpaces_cons {c : Char} (h : isSpace c = false) (t : Text) :
    skipSpaces (c :: t) = c :: t :=
  List.dropWhile_cons_of_neg (by simp [h])

theorem after?_append (word t : Text) : after? word (word ++ t) = some t := by
  induction word with
  | nil => rfl
  | cons c word ih => rw [List.cons_append, after?, if_pos rfl, ih]

/-! Strings -/

theorem stringParts_spellsPart {part : StringPart} {s : Text} (h : SpellsPart part s) (t : Text) :
    stringParts (s ++ t) = (stringParts t).map fun r => (part :: r.1, r.2) := by
  cases h with
  | @plain c printable quote escape =>
    have hallowed : ¬ (c.toNat < 0x20 || c = '\\') = true := by simpa [escape] using printable
    rw [List.singleton_append, stringParts]
    · rw [if_neg hallowed]
      cases stringParts t <;> rfl
    · simpa using quote
    · simp [escape]
    · simp [escape]
  | @escape e c stands =>
    have hunit : e ≠ 'u' := by
      rintro rfl
      cases stands
    rw [List.cons_append, List.singleton_append, stringParts]
    · rw [stands]
      cases stringParts t <;> rfl
    · simp [hunit]
  | @unit a b c d n stands =>
    change stringParts ('\\' :: 'u' :: a :: b :: c :: d :: t) = _
    rw [stringParts, stands]
    cases stringParts t <;> rfl

theorem stringParts_spells {parts : List StringPart} {s : Text} (h : Spells parts s) (t : Text) :
    stringParts (s ++ '"' :: t) = some (parts, t) := by
  induction h with
  | nil => rfl
  | cons first rest ih => rw [List.append_assoc, stringParts_spellsPart first, ih, Option.map_some]

theorem hexDigit?_lt {c : Char} {n : Nat} (h : Text.hexDigit? c = some n) : n < 16 := by
  unfold Text.hexDigit? at h
  split at h
  · next hdigit =>
    obtain rfl := Option.some.inj h
    have hle : c.toNat ≤ 57 := by
      simp only [Char.isDigit, Bool.and_eq_true, decide_eq_true_eq] at hdigit
      exact hdigit.2
    change c.toNat - 48 < 16
    omega
  · split at h
    · next hlower =>
      obtain rfl := Option.some.inj h
      have hle : c.toNat ≤ 102 := by
        simp only [Bool.and_eq_true, decide_eq_true_eq] at hlower
        exact hlower.2
      change c.toNat - 97 + 10 < 16
      omega
    · split at h
      · next hupper =>
        obtain rfl := Option.some.inj h
        have hle : c.toNat ≤ 70 := by
          simp only [Bool.and_eq_true, decide_eq_true_eq] at hupper
          exact hupper.2
        change c.toNat - 65 + 10 < 16
        omega
      · cases h

theorem unit?_lt {a b c d : Char} {n : Nat} (h : unit? a b c d = some n) : n < 0x10000 := by
  obtain ⟨p, hp, h⟩ := Option.bind_eq_some_iff.mp h
  obtain ⟨q, hq, h⟩ := Option.bind_eq_some_iff.mp h
  obtain ⟨r, hr, h⟩ := Option.bind_eq_some_iff.mp h
  obtain ⟨s, hs, h⟩ := Option.bind_eq_some_iff.mp h
  obtain rfl := Option.some.inj h
  have hplt := hexDigit?_lt hp
  have hqlt := hexDigit?_lt hq
  have hrlt := hexDigit?_lt hr
  have hslt := hexDigit?_lt hs
  omega

/-- No character is half a surrogate pair. -/
theorem not_surrogate (c : Char) : isHigh c.toNat = false ∧ isLow c.toNat = false := by
  have hvalid : c.toNat < 0xD800 ∨ 0xDFFF < c.toNat ∧ c.toNat < 0x110000 := c.valid
  simp only [isHigh, isLow, Bool.and_eq_false_iff, decide_eq_false_iff_not]
  omega

theorem toNat_ofNat {n : Nat} (h : n.isValidChar) : (Char.ofNat n).toNat = n := by
  rw [Char.ofNat, dif_pos h]
  rfl

theorem toNat_ofNat_unit {n : Nat} (hlt : n < 0x10000) (hhigh : isHigh n = false)
    (hlow : isLow n = false) : (Char.ofNat n).toNat = n := by
  simp only [isHigh, isLow, Bool.and_eq_false_iff, decide_eq_false_iff_not] at hhigh hlow
  exact toNat_ofNat (by omega)

theorem toNat_ofNat_pair {high low : Nat} (hhigh : isHigh high = true)
    (hlow : isLow low = true) :
    (Char.ofNat (0x10000 + (high - 0xD800) * 0x400 + (low - 0xDC00))).toNat =
      0x10000 + (high - 0xD800) * 0x400 + (low - 0xDC00) := by
  simp only [isHigh, isLow, Bool.and_eq_true, decide_eq_true_eq] at hhigh hlow
  exact toNat_ofNat (by omega)

theorem textOf?_unit {n : Nat} (hhigh : isHigh n = false) (hlow : isLow n = false)
    (parts : List StringPart) :
    textOf? (.unit n :: parts) = (textOf? parts).map (Char.ofNat n :: ·) := by
  cases parts with
  | nil => simp [textOf?, hhigh, hlow]
  | cons part parts =>
    cases part with
    | character c => simp [textOf?, hhigh, hlow]
    | unit m => simp [textOf?, hhigh, hlow]

theorem textOf?_of_standsFor {parts : List StringPart} {t : Text} (h : StandsFor parts t) :
    textOf? parts = some t := by
  induction h with
  | nil => rfl
  | character c rest ih => rw [textOf?, ih, Option.map_some]
  | unit c rest ih =>
    obtain ⟨hhigh, hlow⟩ := not_surrogate c
    rw [textOf?_unit hhigh hlow, ih, Option.map_some, Char.ofNat_toNat]
  | pair hhigh hlow units rest ih =>
    rw [textOf?, if_pos hhigh, if_pos hlow, ih, Option.map_some, ← units, Char.ofNat_toNat]

/-- If no unit has more than sixteen bits, what is read of the parts is what they stand for. -/
theorem standsFor_of_textOf? {parts : List StringPart} {t : Text}
    (hunits : ∀ n, .unit n ∈ parts → n < 0x10000) (h : textOf? parts = some t) :
    StandsFor parts t := by
  fun_induction textOf? parts generalizing t with
  | case1 =>
    cases h
    exact .nil
  | case2 c parts ih =>
    obtain ⟨u, hu, rfl⟩ := Option.map_eq_some_iff.mp h
    exact .character c (ih (fun n hn => hunits n (by simp [hn])) hu)
  | case3 high low parts hhigh hlow ih =>
    obtain ⟨u, hu, rfl⟩ := Option.map_eq_some_iff.mp h
    have hrest := ih (fun n hn => hunits n (by simp [hn])) hu
    exact .pair hhigh hlow (toNat_ofNat_pair hhigh hlow) hrest
  | case4 => cases h
  | case5 => cases h
  | case6 n m parts hhigh hlow ih =>
    obtain ⟨u, hu, rfl⟩ := Option.map_eq_some_iff.mp h
    have hunit := StandsFor.unit (Char.ofNat n) (ih (fun n hn => hunits n (by simp [hn])) hu)
    rwa [toNat_ofNat_unit (hunits n (by simp)) (by simpa using hhigh) (by simpa using hlow)]
      at hunit
  | case7 => cases h
  | case8 n parts _ hnone ih =>
    obtain ⟨u, hu, rfl⟩ := Option.map_eq_some_iff.mp h
    have hunit := StandsFor.unit (Char.ofNat n) (ih (fun n hn => hunits n (by simp [hn])) hu)
    simp only [Bool.or_eq_true, not_or, Bool.not_eq_true] at hnone
    rwa [toNat_ofNat_unit (hunits n (by simp)) hnone.1 hnone.2] at hunit

theorem lt_of_mem_spells {parts : List StringPart} {s : Text} (h : Spells parts s) {n : Nat}
    (hn : .unit n ∈ parts) : n < 0x10000 := by
  induction h with
  | nil => cases hn
  | cons first rest ih =>
    rcases List.mem_cons.mp hn with rfl | hn
    · cases first with
      | unit stands => exact unit?_lt stands
    · exact ih hn

theorem stringRest_spells {value? : Option Text} {s : Text} (h : SpellsString value? s)
    (t : Text) : stringRest (s ++ '"' :: t) = some (value?, t) := by
  obtain ⟨parts, hparts, hstands⟩ := h
  have hvalue : textOf? parts = value? := by
    refine Option.ext fun u => ?_
    rw [hstands u]
    exact ⟨standsFor_of_textOf? fun n hn => lt_of_mem_spells hparts hn, textOf?_of_standsFor⟩
  rw [stringRest, stringParts_spells hparts, Option.map_some]
  exact congrArg (fun v => some (v, t)) hvalue

/-- Parts stand for at most one text. -/
theorem StandsFor.unique {parts : List StringPart} {t u : Text} (ht : StandsFor parts t)
    (hu : StandsFor parts u) : t = u :=
  Option.some.inj ((textOf?_of_standsFor ht).symm.trans (textOf?_of_standsFor hu))

theorem spellsString_of_standsFor {parts : List StringPart} {s t : Text} (hs : Spells parts s)
    (ht : StandsFor parts t) : SpellsString (some t) s := by
  refine ⟨parts, hs, fun u => ⟨?_, fun hu => congrArg some (ht.unique hu)⟩⟩
  rintro ⟨⟩
  exact ht

/-- Whether a character may spell itself. -/
def isPlain (c : Char) : Bool := 0x20 ≤ c.toNat && c ≠ '"' && c ≠ '\\'

theorem spells_characters {t : Text} (h : t.all isPlain = true) :
    Spells (t.map .character) t := by
  induction t with
  | nil => exact .nil
  | cons c t ih =>
    obtain ⟨hc, ht⟩ : isPlain c = true ∧ t.all isPlain = true := by simpa using h
    obtain ⟨⟨hprintable, hquote⟩, hescape⟩ :
        (0x20 ≤ c.toNat ∧ c ≠ '"') ∧ c ≠ '\\' := by simpa [isPlain] using hc
    exact .cons (.plain hprintable hquote hescape) (ih ht)

theorem standsFor_characters (t : Text) : StandsFor (t.map .character) t := by
  induction t with
  | nil => exact .nil
  | cons c t ih => exact .character c ih

theorem spellsString_self {t : Text} (h : t.all isPlain = true) : SpellsString (some t) t :=
  spellsString_of_standsFor (spells_characters h) (standsFor_characters t)

/-! Numbers -/

/-- Whether no number can go on with what follows. -/
def EndsNumber (t : Text) : Prop :=
  ∀ c ∈ t.head?, c.isDigit = false ∧ c ≠ '.' ∧ c ≠ 'e' ∧ c ≠ 'E'

theorem IsDigits.exists_cons {run : Text} (h : IsDigits run) :
    ∃ d rest, run = d :: rest ∧ d.isDigit = true := by
  obtain ⟨d, rest, rfl⟩ := List.exists_cons_of_ne_nil h.1
  exact ⟨d, rest, rfl, h.2 d (by simp)⟩

theorem digits_append {run t : Text} (h : IsDigits run) (ht : ∀ c ∈ t.head?, c.isDigit = false) :
    digits (run ++ t) = some (run, t) := by
  have hhead : t.takeWhile Char.isDigit = [] ∧ t.dropWhile Char.isDigit = t := by
    cases t with
    | nil => exact ⟨rfl, rfl⟩
    | cons c t =>
      have hc : ¬ c.isDigit = true := by simpa using ht c rfl
      exact ⟨List.takeWhile_cons_of_neg hc, List.dropWhile_cons_of_neg hc⟩
  rw [digits, List.takeWhile_append_of_pos h.2, List.dropWhile_append_of_pos h.2, hhead.1, hhead.2,
    List.append_nil]
  exact if_neg (by simpa using h.1)

theorem wholePart_append {run t : Text} (h : IsWhole run)
    (ht : ∀ c ∈ t.head?, c.isDigit = false) : wholePart (run ++ t) = some (run, t) := by
  simp only [wholePart, digits_append h.1 ht, Option.bind_eq_bind, Option.bind_some]
  split
  · next hzero => cases h.2 rfl
  · rfl

theorem head_exponent {power t : Text} (h : IsExponent power) (ht : EndsNumber t) :
    ∀ c ∈ (power ++ t).head?, c.isDigit = false ∧ c ≠ '.' := by
  intro c hc
  rcases h with rfl | ⟨e, sign, run, he, -, -, rfl⟩
  · obtain ⟨hdigit, hpoint, -⟩ := ht c hc
    exact ⟨hdigit, hpoint⟩
  · obtain rfl : e = c := Option.some.inj hc
    rcases he with rfl | rfl <;> decide

theorem head_fraction {part t : Text} (h : IsFraction part)
    (ht : ∀ c ∈ t.head?, c.isDigit = false ∧ c ≠ '.') :
    ∀ c ∈ (part ++ t).head?, c.isDigit = false := by
  intro c hc
  rcases h with rfl | ⟨run, -, rfl⟩
  · exact (ht c hc).1
  · obtain rfl : '.' = c := Option.some.inj hc
    rfl

theorem fraction_append {part t : Text} (h : IsFraction part)
    (ht : ∀ c ∈ t.head?, c.isDigit = false ∧ c ≠ '.') : fraction (part ++ t) = some (part, t) := by
  rcases h with rfl | ⟨run, hrun, rfl⟩
  · rw [List.nil_append]
    unfold fraction
    split
    · exact absurd rfl (ht '.' rfl).2
    · rfl
  · rw [List.cons_append, fraction, digits_append hrun fun c hc => (ht c hc).1]
    rfl

theorem exponent_append {power t : Text} (h : IsExponent power) (ht : EndsNumber t) :
    exponent (power ++ t) = some (power, t) := by
  rcases h with rfl | ⟨e, sign, run, he, hsign, hrun, rfl⟩
  · rw [List.nil_append]
    cases t with
    | nil => rfl
    | cons c t =>
      obtain ⟨-, -, hlower, hupper⟩ := ht c rfl
      have hmark : ¬ (c = 'e' || c = 'E') = true := by simp [hlower, hupper]
      simp only [exponent, if_neg hmark]
  · have hdigits := digits_append hrun fun c hc => (ht c hc).1
    have hmark : (e = 'e' || e = 'E') = true := by simpa using he
    rcases hsign with rfl | rfl | rfl
    · obtain ⟨d, more, rfl, hd⟩ := hrun.exists_cons
      have hunsigned : ¬ (d = '+' || d = '-') = true := by
        intro hd'
        simp only [Bool.or_eq_true, decide_eq_true_eq] at hd'
        rcases hd' with rfl | rfl <;> cases hd
      rw [List.cons_append] at hdigits
      simp only [List.nil_append, List.cons_append, exponent, if_pos hmark, if_neg hunsigned,
        hdigits, Option.map_some]
    all_goals
      simp only [List.cons_append, List.nil_append, exponent, if_pos hmark, hdigits,
        Option.map_some]
      rfl

/-- A number after its sign. -/
def unsigned (sign t : Text) : Option (Text × Text) :=
  (wholePart t).bind fun whole => (fraction whole.2).bind fun part =>
    (exponent part.2).map fun power => (sign ++ whole.1 ++ part.1 ++ power.1, power.2)

theorem numberText_minus (t : Text) : numberText ('-' :: t) = unsigned ['-'] t := by
  simp only [numberText, unsigned, Option.map_eq_bind]
  rfl

theorem numberText_of_head {t : Text} (h : t.head? ≠ some '-') :
    numberText t = unsigned [] t := by
  simp only [numberText, unsigned, Option.map_eq_bind]
  split
  · exact absurd rfl h
  · rfl

theorem unsigned_append {whole part power t : Text} (hwhole : IsWhole whole)
    (hpart : IsFraction part) (hpower : IsExponent power) (ht : EndsNumber t) (sign : Text) :
    unsigned sign (whole ++ (part ++ (power ++ t))) =
      some (sign ++ whole ++ part ++ power, t) := by
  have hexponent := head_exponent hpower ht
  rw [unsigned, wholePart_append hwhole (head_fraction hpart hexponent), Option.bind_some,
    fraction_append hpart hexponent, Option.bind_some, exponent_append hpower ht, Option.map_some]

theorem numberText_append {s t : Text} (h : IsNumber s) (ht : EndsNumber t) :
    numberText (s ++ t) = some (s, t) := by
  obtain ⟨sign, whole, part, power, hsign, hwhole, hpart, hpower, rfl⟩ := h
  rw [← unsigned_append hwhole hpart hpower ht sign]
  simp only [List.append_assoc]
  rcases hsign with rfl | rfl
  · refine numberText_of_head ?_
    obtain ⟨d, rest, rfl, hd⟩ := hwhole.1.exists_cons
    intro hminus
    obtain rfl : d = '-' := Option.some.inj hminus
    cases hd
  · exact numberText_minus _

theorem IsNumber.exists_cons {s : Text} (h : IsNumber s) :
    ∃ c t, s = c :: t ∧ (c = '-' ∨ c.isDigit = true) := by
  obtain ⟨sign, whole, part, power, hsign, hwhole, -, -, rfl⟩ := h
  rcases hsign with rfl | rfl
  · obtain ⟨d, rest, rfl, hd⟩ := hwhole.1.exists_cons
    exact ⟨d, _, rfl, .inr hd⟩
  · exact ⟨'-', _, rfl, .inl rfl⟩

/-- A character that starts a number starts nothing else. -/
theorem value_of_number {c : Char} (h : c = '-' ∨ c.isDigit = true) (depth : Nat) (t : Text) :
    value (depth + 1) (c :: t) = (numberText (c :: t)).map fun r => (.number r.1, r.2) := by
  have hne : ∀ d : Char, d ≠ '-' → d.isDigit = false → c ≠ d := by
    rintro d hminus hdigit rfl
    rcases h with rfl | h
    · exact hminus rfl
    · rw [hdigit] at h
      cases h
  rw [value]
  · simp
  all_goals
    intro rest hc
    exact hne _ (by decide) (by decide) (List.cons.inj hc).1

end ProjectFile.Json
