import ProjectFile.Proofs.Json.Scan

/-!
The reader reads every text that the grammar allows, and it reads the value that the text writes.
By induction on the grammar this holds for any bound on the depth that is more than the length of
the text, since what is nested in a text is shorter than the text.
-/

namespace ProjectFile.Json

/-! Elements and members -/

theorem isSpace_cases {c : Char} (h : isSpace c = true) :
    c = ' ' ∨ c = '\t' ∨ c = '\n' ∨ c = '\r' := by
  simpa [isSpace, or_assoc] using h

theorem endsNumber_cons {c : Char} (h : c.isDigit = false ∧ c ≠ '.' ∧ c ≠ 'e' ∧ c ≠ 'E')
    (t : Text) : EndsNumber (c :: t) := by
  intro d hd
  rwa [← Option.some.inj hd]

theorem EndsNumber.append {s t : Text} (hs : IsSpaces s) (ht : EndsNumber t) :
    EndsNumber (s ++ t) := by
  cases s with
  | nil => exact ht
  | cons c s =>
    refine endsNumber_cons ?_ _
    rcases isSpace_cases (hs c (by simp)) with rfl | rfl | rfl | rfl <;> decide

/-- Whether a reader reads a value off a text that starts with no white space, whatever follows,
unless a number would go on with it. -/
structure Reads (read : Text → Option (Json × Text)) (v : Json) (s : Text) : Prop where
  start : ∀ t, skipSpaces (s ++ t) = s ++ t
  rest : ∀ t, EndsNumber t → read (s ++ t) = some (v, t)

variable {read : Text → Option (Json × Text)}

/-- An element is read up to the delimiter after it. -/
theorem Reads.padded {e : Element} (h : Reads read e.value e.text) (hspaced : e.IsSpaced)
    {t : Text} (ht : EndsNumber t) :
    read (skipSpaces (e.padded ++ t)) = some (e.value, e.after ++ t) := by
  rw [Element.padded, List.append_assoc, List.append_assoc, skipSpaces_append hspaced.1, h.start]
  exact h.rest _ (ht.append hspaced.2)

/-- Joined texts are the first of them and a comma before each of the others. -/
theorem join_cons (s : Text) (ss : List Text) :
    Text.join "," (s :: ss) = s ++ ss.flatMap (',' :: ·) := by
  induction ss generalizing s with
  | nil => rw [Text.join_singleton, List.flatMap_nil, List.append_nil]
  | cons s' ss ih =>
    rw [Text.join_cons_cons, ih, List.flatMap_cons, List.append_assoc]
    rfl

theorem join_cons_append (s : Text) {ss : List Text} (hne : ss ≠ []) (t : Text) :
    Text.join "," (s :: ss) ++ t = s ++ ',' :: (Text.join "," ss ++ t) := by
  obtain ⟨s', ss, rfl⟩ := List.exists_cons_of_ne_nil hne
  rw [join_cons, join_cons, List.flatMap_cons, List.append_assoc]
  rfl

theorem length_le_of_mem_join {s : Text} {ss : List Text} (h : s ∈ ss) :
    s.length ≤ (Text.join "," ss).length := by
  induction ss with
  | nil => cases h
  | cons s' ss ih =>
    rcases List.mem_cons.mp h with rfl | h
    · rw [join_cons, List.length_append]
      omega
    · have happend := join_cons_append s' (List.ne_nil_of_mem h) []
      have hrest := ih h
      rw [List.append_nil, List.append_nil] at happend
      rw [happend, List.length_append, List.length_cons]
      omega

theorem elements_join {es : List Element} (hne : es ≠ []) (hspaced : ∀ e ∈ es, e.IsSpaced)
    (hread : ∀ e ∈ es, Reads read e.value e.text) {n : Nat} (hn : es.length ≤ n) (t : Text) :
    elements read n (Text.join "," (es.map Element.padded) ++ ']' :: t) =
      some (es.map Element.value, t) := by
  induction es generalizing n with
  | nil => exact absurd rfl hne
  | cons e es ih =>
    obtain ⟨n, rfl⟩ : ∃ m, n = m + 1 := ⟨n - 1, by rw [List.length_cons] at hn; omega⟩
    have hfirst := hread e (by simp)
    have hafter := (hspaced e (by simp)).2
    by_cases hes : es = []
    · subst hes
      have hends : EndsNumber (']' :: t) := endsNumber_cons (by decide) _
      rw [List.map_singleton, Text.join_singleton]
      simp only [elements, hfirst.padded (hspaced e (by simp)) hends, Option.bind_eq_bind,
        Option.bind_some, skipSpaces_append hafter]
      rfl
    · have hends : EndsNumber (',' :: (Text.join "," (es.map Element.padded) ++ ']' :: t)) :=
        endsNumber_cons (by decide) _
      have hrest := ih hes (fun e' he => hspaced e' (by simp [he]))
        (fun e' he => hread e' (by simp [he])) (by simpa using hn)
      rw [List.map_cons, join_cons_append _ (by simpa using hes)]
      simp only [elements, hfirst.padded (hspaced e (by simp)) hends, Option.bind_eq_bind,
        Option.bind_some, skipSpaces_append hafter, skipSpaces_cons (c := ',') rfl, hrest]
      rfl

theorem elements_congr {s t : Text} (h : skipSpaces s = skipSpaces t) (n : Nat) :
    elements read n s = elements read n t := by
  cases n with
  | zero => rfl
  | succ n => rw [elements, h, elements]

theorem membersFrom_congr {s t : Text} (h : skipSpaces s = skipSpaces t) (n : Nat) :
    membersFrom read n s = membersFrom read n t := by
  cases n with
  | zero => rfl
  | succ n => rw [membersFrom, h, membersFrom]

/-- Of a member the name is read first, up to the colon. -/
theorem Member.IsSpaced.skipSpaces_padded {m : Member} (h : m.IsSpaced) (t : Text) :
    skipSpaces (m.padded ++ t) =
      '"' :: (m.spelling ++ '"' :: (m.after ++ ':' :: (m.element.padded ++ t))) := by
  simp only [Member.padded, List.append_assoc, List.cons_append]
  rw [skipSpaces_append h.1, skipSpaces_cons rfl]

theorem membersFrom_join {ms : List Member} (hne : ms ≠ []) (hspaced : ∀ m ∈ ms, m.IsSpaced)
    (hname : ∀ m ∈ ms, SpellsString m.name? m.spelling)
    (hread : ∀ m ∈ ms, Reads read m.element.value m.element.text) {n : Nat}
    (hn : ms.length ≤ n) (t : Text) :
    membersFrom read n (Text.join "," (ms.map Member.padded) ++ '\x7d' :: t) =
      some (ms.map fun m => (m.name?, m.element.value), t) := by
  induction ms generalizing n with
  | nil => exact absurd rfl hne
  | cons m ms ih =>
    obtain ⟨n, rfl⟩ : ∃ k, n = k + 1 := ⟨n - 1, by rw [List.length_cons] at hn; omega⟩
    have hfirst := hread m (by simp)
    have hopen := (hspaced m (by simp)).skipSpaces_padded
    have hspell := stringRest_spells (hname m (by simp))
    obtain ⟨-, hafter, hvalue⟩ := hspaced m (by simp)
    by_cases hms : ms = []
    · subst hms
      have hends : EndsNumber ('\x7d' :: t) := endsNumber_cons (by decide) _
      rw [List.map_singleton, Text.join_singleton]
      simp only [membersFrom, hopen, hspell, skipSpaces_append hafter,
        skipSpaces_cons (c := ':') rfl, hfirst.padded hvalue hends, Option.bind_eq_bind,
        Option.bind_some, skipSpaces_append hvalue.2]
      rfl
    · have hends : EndsNumber (',' :: (Text.join "," (ms.map Member.padded) ++ '\x7d' :: t)) :=
        endsNumber_cons (by decide) _
      have hrest := ih hms (fun m' hm => hspaced m' (by simp [hm]))
        (fun m' hm => hname m' (by simp [hm])) (fun m' hm => hread m' (by simp [hm]))
        (by simpa using hn)
      rw [List.map_cons, join_cons_append _ (by simpa using hms)]
      simp only [membersFrom, hopen, hspell, skipSpaces_append hafter,
        skipSpaces_cons (c := ':') rfl, hfirst.padded hvalue hends, Option.bind_eq_bind,
        Option.bind_some, skipSpaces_append hvalue.2, skipSpaces_cons (c := ',') rfl, hrest]
      rfl

/-! Values -/

theorem Writes.exists_cons {v : Json} {s : Text} (h : Writes v s) :
    ∃ c t, s = c :: t ∧ isSpace c = false ∧ c ≠ ']' := by
  cases h with
  | null => exact ⟨'n', _, rfl, rfl, by decide⟩
  | isTrue => exact ⟨'t', _, rfl, rfl, by decide⟩
  | isFalse => exact ⟨'f', _, rfl, rfl, by decide⟩
  | number digits =>
    obtain ⟨c, t, rfl, hc⟩ := digits.exists_cons
    refine ⟨c, t, rfl, ?_, ?_⟩
    · rw [Bool.eq_false_iff]
      intro hspace
      rcases isSpace_cases hspace with rfl | rfl | rfl | rfl <;> simp at hc
    · rintro rfl
      simp at hc
  | string => exact ⟨'"', _, rfl, rfl, by decide⟩
  | noElements => exact ⟨'[', _, rfl, rfl, by decide⟩
  | array => exact ⟨'[', _, rfl, rfl, by decide⟩
  | noMembers => exact ⟨'\x7b', _, rfl, rfl, by decide⟩
  | object => exact ⟨'\x7b', _, rfl, rfl, by decide⟩

theorem Writes.skipSpaces_append {v : Json} {s : Text} (h : Writes v s) (t : Text) :
    skipSpaces (s ++ t) = s ++ t := by
  obtain ⟨c, u, rfl, hspace, -⟩ := h.exists_cons
  exact skipSpaces_cons hspace _

/-- What does not close an array at once is read as its elements. -/
theorem value_elements {c : Char} {s u : Text} (hopen : skipSpaces s = c :: u) (hc : c ≠ ']')
    (hspace : isSpace c = false) (depth : Nat) :
    value (depth + 1) ('[' :: s) =
      (elements (value depth) (u.length + 1) s).map fun r => (.array r.1, r.2) := by
  rw [elements_congr (hopen.trans (skipSpaces_cons hspace u).symm), value, hopen]
  split
  · next hclose => exact absurd (List.cons.inj hclose).1 hc
  · rfl

/-- What does not close an object at once is read as its members. -/
theorem value_members {c : Char} {s u : Text} (hopen : skipSpaces s = c :: u) (hc : c ≠ '\x7d')
    (hspace : isSpace c = false) (depth : Nat) :
    value (depth + 1) ('\x7b' :: s) =
      (membersFrom (value depth) (u.length + 1) s).map fun r => (.object r.1, r.2) := by
  rw [membersFrom_congr (hopen.trans (skipSpaces_cons hspace u).symm), value, hopen]
  split
  · next hclose => exact absurd (List.cons.inj hclose).1 hc
  · rfl

theorem value_array {es : List Element} (hne : es ≠ []) (hspaced : ∀ e ∈ es, e.IsSpaced)
    (hwritten : ∀ e ∈ es, Writes e.value e.text) {depth : Nat}
    (hread : ∀ e ∈ es, Reads (value depth) e.value e.text) (t : Text) :
    value (depth + 1) ('[' :: (Text.join "," (es.map Element.padded) ++ ']' :: t)) =
      some (.array (es.map Element.value), t) := by
  obtain ⟨e, es, rfl⟩ := List.exists_cons_of_ne_nil hne
  have hlength := Text.length_le_length_flatMap (fun s => List.cons_ne_nil ',' s)
    (es.map Element.padded)
  generalize htail : (es.map Element.padded).flatMap (',' :: ·) = tail at hlength
  obtain ⟨c, u, htext, hspace, hclose⟩ := (hwritten e (by simp)).exists_cons
  have hopen : skipSpaces (Text.join "," ((e :: es).map Element.padded) ++ ']' :: t) =
      c :: (u ++ (e.after ++ (tail ++ ']' :: t))) := by
    rw [List.map_cons, join_cons, htail, Element.padded, htext]
    simp only [List.append_assoc]
    rw [Json.skipSpaces_append (hspaced e (by simp)).1, List.cons_append, skipSpaces_cons hspace]
  have hfuel : (e :: es).length ≤ (u ++ (e.after ++ (tail ++ ']' :: t))).length + 1 := by
    rw [List.length_map] at hlength
    simp only [List.length_cons, List.length_append]
    omega
  rw [value_elements hopen hclose hspace, elements_join hne hspaced hread hfuel, Option.map_some]

theorem value_object {ms : List Member} (hne : ms ≠ []) (hspaced : ∀ m ∈ ms, m.IsSpaced)
    (hname : ∀ m ∈ ms, SpellsString m.name? m.spelling) {depth : Nat}
    (hread : ∀ m ∈ ms, Reads (value depth) m.element.value m.element.text) (t : Text) :
    value (depth + 1) ('\x7b' :: (Text.join "," (ms.map Member.padded) ++ '\x7d' :: t)) =
      some (.object (ms.map fun m => (m.name?, m.element.value)), t) := by
  obtain ⟨m, ms, rfl⟩ := List.exists_cons_of_ne_nil hne
  have hlength := Text.length_le_length_flatMap (fun s => List.cons_ne_nil ',' s)
    (ms.map Member.padded)
  generalize htail : (ms.map Member.padded).flatMap (',' :: ·) = tail at hlength
  have hopen : skipSpaces (Text.join "," ((m :: ms).map Member.padded) ++ '\x7d' :: t) =
      '"' :: (m.spelling ++ '"' :: (m.after ++ ':' ::
        (m.element.padded ++ (tail ++ '\x7d' :: t)))) := by
    rw [List.map_cons, join_cons, htail, List.append_assoc]
    exact (hspaced m (by simp)).skipSpaces_padded _
  have hfuel : (m :: ms).length ≤ (m.spelling ++ '"' :: (m.after ++ ':' ::
      (m.element.padded ++ (tail ++ '\x7d' :: t)))).length + 1 := by
    rw [List.length_map] at hlength
    simp only [List.length_cons, List.length_append]
    omega
  rw [value_members hopen (by decide) rfl, membersFrom_join hne hspaced hname hread hfuel,
    Option.map_some]

/-- A value is read off any text that writes it. -/
theorem value_of_writes {v : Json} {s : Text} (h : Writes v s) {depth : Nat}
    (hdepth : s.length < depth) {t : Text} (ht : EndsNumber t) :
    value depth (s ++ t) = some (v, t) := by
  obtain ⟨depth, rfl⟩ : ∃ d, depth = d + 1 := ⟨depth - 1, by omega⟩
  induction h generalizing depth t with
  | null =>
    change value (depth + 1) ('n' :: ("ull".toList ++ t)) = _
    rw [value, after?_append]
    rfl
  | isTrue =>
    change value (depth + 1) ('t' :: ("rue".toList ++ t)) = _
    rw [value, after?_append]
    rfl
  | isFalse =>
    change value (depth + 1) ('f' :: ("alse".toList ++ t)) = _
    rw [value, after?_append]
    rfl
  | number digits =>
    obtain ⟨c, u, rfl, hc⟩ := digits.exists_cons
    rw [List.cons_append, value_of_number hc, ← List.cons_append, numberText_append digits ht]
    rfl
  | string spells =>
    rw [List.append_assoc, List.cons_append, value, List.singleton_append, stringRest_spells spells]
    rfl
  | noElements spaces =>
    rw [List.append_assoc, List.cons_append, value, List.singleton_append,
      Json.skipSpaces_append spaces, skipSpaces_cons rfl]
    rfl
  | @array es hsome spaced written ih =>
    have hread : ∀ e ∈ es, Reads (value depth) e.value e.text := by
      refine fun e he => ⟨(written e he).skipSpaces_append, fun t ht => ?_⟩
      have hmem : e.padded ∈ es.map Element.padded := List.mem_map_of_mem he
      have hlength := length_le_of_mem_join hmem
      simp only [Element.padded, List.length_append, List.length_cons] at hlength hdepth
      obtain ⟨depth, rfl⟩ : ∃ d, depth = d + 1 := ⟨depth - 1, by omega⟩
      exact ih e he ht depth (by omega)
    rw [List.append_assoc]
    exact value_array hsome spaced written hread t
  | noMembers spaces =>
    rw [List.append_assoc, List.cons_append, value, List.singleton_append,
      Json.skipSpaces_append spaces, skipSpaces_cons rfl]
    rfl
  | @object ms hsome spaced named written ih =>
    have hread : ∀ m ∈ ms, Reads (value depth) m.element.value m.element.text := by
      refine fun m hm => ⟨(written m hm).skipSpaces_append, fun t ht => ?_⟩
      have hmem : m.padded ∈ ms.map Member.padded := List.mem_map_of_mem hm
      have hlength := length_le_of_mem_join hmem
      simp only [Member.padded, Element.padded, List.length_append, List.length_cons]
        at hlength hdepth
      obtain ⟨depth, rfl⟩ : ∃ d, depth = d + 1 := ⟨depth - 1, by omega⟩
      exact ih m hm ht depth (by omega)
    rw [List.append_assoc]
    exact value_object hsome spaced named hread t

theorem parse_of_writes {v : Json} {s before after : Text} (h : Writes v s)
    (hbefore : IsSpaces before) (hafter : IsSpaces after) :
    parse (before ++ s ++ after) = some v := by
  have hends : EndsNumber after := by
    have hnil : EndsNumber [] := by rintro c ⟨⟩
    simpa using hnil.append hafter
  have hlength : s.length < (s ++ after).length + 1 := by
    rw [List.length_append]
    omega
  rw [parse, List.append_assoc, Json.skipSpaces_append hbefore, h.skipSpaces_append]
  simp only [value_of_writes h hlength hends, skipSpaces_of_isSpaces hafter]
  rfl

end ProjectFile.Json
