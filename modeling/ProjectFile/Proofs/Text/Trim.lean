import Mathlib.Data.List.DropRight
import ProjectFile.Text.Basic

/-!
Trimmed texts. Trimming a second time changes nothing, so what is kept of a value that is not blank
and the pieces between separators are trimmed texts, and the pieces have no separator in them. It
does not matter for the pieces whether the whole text has been trimmed before. There are none if
the text has nothing in it but separators and white space. Texts that are joined by separators, with
white space after them or without, are the pieces of the text that is joined, if they can be pieces
at all.
-/

namespace ProjectFile.Text

/-- Whether a text says something and has no white space around it. -/
def IsTrimmed (t : Text) : Prop := t ≠ [] ∧ t.trim = t

instance (t : Text) : Decidable t.IsTrimmed := inferInstanceAs (Decidable (_ ∧ _))

/-- Whether a text can be one of the pieces between separators. -/
def IsPiece (separator : Char) (t : Text) : Prop := t.IsTrimmed ∧ separator ∉ t

instance (separator : Char) (t : Text) : Decidable (t.IsPiece separator) :=
  inferInstanceAs (Decidable (_ ∧ _))

theorem trimEnd_isPrefix (t : Text) : trimEnd t <+: t := List.rdropWhile_prefix isBlank t

theorem trim_sublist (t : Text) : (trim t).Sublist t :=
  (trimEnd_isPrefix (trimStart t)).sublist.trans (List.dropWhile_sublist _)

/-- Trimming the end leaves no white space at the start where there was none. -/
theorem trimStart_trim (t : Text) : trimStart (trim t) = trim t := by
  refine List.dropWhile_eq_self_iff.mpr fun hpos => ?_
  have hpre : trim t <+: t.dropWhile isBlank := trimEnd_isPrefix (trimStart t)
  rw [hpre.getElem hpos]
  exact List.dropWhile_get_zero_not isBlank t (Nat.lt_of_lt_of_le hpos hpre.length_le)

theorem trim_trim (t : Text) : trim (trim t) = trim t := by
  have hend : trimEnd (trim t) = trim t := List.rdropWhile_idempotent isBlank (trimStart t)
  conv => lhs; rw [trim, trimStart_trim]
  exact hend

theorem isTrimmed_of_nonBlank? {t u : Text} (h : nonBlank? t = some u) : u.IsTrimmed := by
  rw [nonBlank?_eq_ite] at h
  split at h
  · cases h
  · next hne =>
    obtain rfl := Option.some.inj h
    exact ⟨hne, trim_trim t⟩

theorem nonBlank?_of_isTrimmed {t : Text} (h : t.IsTrimmed) : nonBlank? t = some t := by
  obtain ⟨hne, htrim⟩ := h
  rw [nonBlank?_eq_ite, htrim, if_neg hne]

theorem nonBlank?_sublist {t u : Text} (h : nonBlank? t = some u) : u.Sublist t := by
  rw [nonBlank?_eq_ite] at h
  split at h
  · cases h
  · obtain rfl := Option.some.inj h
    exact trim_sublist t

theorem isPiece_of_mem_pieces {separator : Char} {t piece : Text}
    (h : piece ∈ pieces separator t) : piece.IsPiece separator := by
  obtain ⟨part, hpart, hpiece⟩ := List.mem_filterMap.mp h
  have hsingle : separator ∉ piece := fun hmem =>
    not_mem_of_mem_splitOn hpart ((nonBlank?_sublist hpiece).mem hmem)
  exact ⟨isTrimmed_of_nonBlank? hpiece, hsingle⟩

/-- A text that can be a piece is the only piece of itself. -/
theorem IsPiece.pieces_eq {separator : Char} {t : Text} (h : t.IsPiece separator) :
    pieces separator t = [t] := by
  obtain ⟨htrimmed, hsingle⟩ := h
  rw [pieces, splitOn_of_not_mem hsingle, List.filterMap_cons, nonBlank?_of_isTrimmed htrimmed]
  rfl

theorem trim_cons {c : Char} (h : isBlank c = true) (t : Text) : trim (c :: t) = trim t := by
  rw [trim, trimStart, List.dropWhile_cons_of_pos h]
  rfl

theorem trimEnd_concat {c : Char} (h : isBlank c = true) (t : Text) :
    trimEnd (t ++ [c]) = trimEnd t := List.rdropWhile_concat_pos isBlank t c h

theorem trim_concat {c : Char} (h : isBlank c = true) (t : Text) : trim (t ++ [c]) = trim t := by
  by_cases hblank : t.dropWhile isBlank = []
  · have hall : ∀ d ∈ t, isBlank d = true := by simpa using hblank
    rw [trim, trimStart, List.dropWhile_append_of_pos hall, List.dropWhile_cons_of_pos h, trim,
      trimStart, hblank]
    rfl
  · rw [trim, trimStart, List.dropWhile_append, if_neg (by simpa using hblank)]
    exact trimEnd_concat h _

/-- White space around a text does not count. -/
theorem trim_append_of_blank {before after : Text} (hbefore : ∀ c ∈ before, isBlank c = true)
    (hafter : ∀ c ∈ after, isBlank c = true) (t : Text) : trim (before ++ t ++ after) = trim t := by
  have hend (u : Text) : trim (u ++ after) = trim u := by
    induction after using List.reverseRecOn with
    | nil => rw [List.append_nil]
    | append_singleton after c ih =>
      rw [← List.append_assoc, trim_concat (hafter c (by simp))]
      exact ih fun d hd => hafter d (by simp [hd])
  rw [hend]
  induction before with
  | nil => rfl
  | cons c before ih =>
    rw [List.cons_append, trim_cons (hbefore c (by simp))]
    exact ih fun d hd => hbefore d (by simp [hd])

theorem trim_eq_self_iff {t : Text} : trim t = t ↔ trimStart t = t ∧ trimEnd t = t := by
  constructor
  · intro h
    have hstart : trimStart t = t := by
      have hstart := trimStart_trim t
      rwa [h] at hstart
    refine ⟨hstart, ?_⟩
    rwa [trim, hstart] at h
  · rintro ⟨hstart, hend⟩
    rw [trim, hstart, hend]

theorem trimStart_append {s : Text} (h : trimStart s = s) (hne : s ≠ []) (t : Text) :
    trimStart (s ++ t) = s ++ t := by
  change s.dropWhile isBlank = s at h
  rw [trimStart, List.dropWhile_append, h, if_neg (by simpa using hne)]

theorem trimEnd_append {t : Text} (h : trimEnd t = t) (hne : t ≠ []) (s : Text) :
    trimEnd (s ++ t) = s ++ t := by
  have hreverse : trimStart t.reverse = t.reverse := by
    rw [← List.reverse_inj, List.reverse_reverse]
    exact h
  have happend := trimStart_append hreverse (by simpa using hne) s.reverse
  rw [trimEnd, List.reverse_append]
  change (trimStart _).reverse = _
  rw [happend, ← List.reverse_append, List.reverse_reverse]

/-- Trimmed texts with something between them that is not white space are a trimmed text. -/
theorem trim_append_cons {c : Char} (hc : isBlank c = false) {s t : Text} (hs : trim s = s)
    (hne : s ≠ []) (ht : trim t = t) : trim (s ++ c :: t) = s ++ c :: t := by
  obtain ⟨hstart, -⟩ := trim_eq_self_iff.mp hs
  obtain ⟨-, hend⟩ := trim_eq_self_iff.mp ht
  refine trim_eq_self_iff.mpr ⟨trimStart_append hstart hne _, ?_⟩
  by_cases hnil : t = []
  · subst hnil
    exact List.rdropWhile_concat_neg isBlank s c (by simp [hc])
  · have happend := trimEnd_append hend hnil (s ++ [c])
    rwa [List.append_assoc] at happend

/-- Replacing characters changes nothing about trimming if white space stays and nothing becomes
white space. -/
theorem trim_map {f : Char → Char} (hf : ∀ c, isBlank (f c) = isBlank c) (t : Text) :
    trim (t.map f) = (trim t).map f := by
  have hstart (u : Text) : trimStart (u.map f) = (trimStart u).map f := by
    rw [trimStart, List.dropWhile_map, show isBlank ∘ f = isBlank from funext hf]
    rfl
  have hend (u : Text) : trimEnd (u.map f) = (trimEnd u).map f := by
    rw [trimEnd, ← List.map_reverse]
    change (trimStart _).reverse = _
    rw [hstart, ← List.map_reverse]
    rfl
  rw [trim, hstart, hend, trim]

theorem nonBlank?_congr {s t : Text} (h : trim s = trim t) : nonBlank? s = nonBlank? t := by
  rw [nonBlank?, h, nonBlank?]

/-- White space at the start goes to the first part, where it does not count. -/
theorem pieces_cons {separator c : Char} (hc : isBlank c = true) (hne : c ≠ separator)
    (t : Text) : pieces separator (c :: t) = pieces separator t := by
  obtain ⟨part, parts, hsplit⟩ := List.exists_cons_of_ne_nil (splitOn_ne_nil separator t)
  rw [pieces, splitOn, if_neg hne, hsplit, pieces, hsplit]
  dsimp only
  rw [List.filterMap_cons, nonBlank?_congr (trim_cons hc part), List.filterMap_cons]

theorem splitOn_concat {separator c : Char} (hne : c ≠ separator) (t : Text) :
    ∃ parts last, splitOn separator t = parts ++ [last] ∧
      splitOn separator (t ++ [c]) = parts ++ [last ++ [c]] := by
  induction t with
  | nil => exact ⟨[], [], rfl, by simp [splitOn, hne]⟩
  | cons d t ih =>
    obtain ⟨parts, last, hsplit, hconcat⟩ := ih
    rw [List.cons_append, splitOn, splitOn, hsplit, hconcat]
    by_cases hd : d = separator
    · exact ⟨[] :: parts, last, by simp [hd], by simp [hd]⟩
    · cases parts with
      | nil => exact ⟨[], d :: last, by simp [hd], by simp [hd]⟩
      | cons part parts => exact ⟨(d :: part) :: parts, last, by simp [hd], by simp [hd]⟩

theorem pieces_concat {separator c : Char} (hc : isBlank c = true) (hne : c ≠ separator)
    (t : Text) : pieces separator (t ++ [c]) = pieces separator t := by
  obtain ⟨parts, last, hsplit, hconcat⟩ := splitOn_concat hne t
  rw [pieces, hconcat, pieces, hsplit, List.filterMap_append, List.filterMap_append,
    List.filterMap_cons, nonBlank?_congr (trim_concat hc last), List.filterMap_cons]

theorem pieces_trimStart {separator : Char} (h : isBlank separator = false) (t : Text) :
    pieces separator (trimStart t) = pieces separator t := by
  induction t with
  | nil => rfl
  | cons c t ih =>
    by_cases hc : isBlank c = true
    · have hne : c ≠ separator := by
        rintro rfl
        rw [h] at hc
        cases hc
      rw [trimStart, List.dropWhile_cons_of_pos hc, pieces_cons hc hne]
      exact ih
    · rw [trimStart, List.dropWhile_cons_of_neg hc]

theorem pieces_trimEnd {separator : Char} (h : isBlank separator = false) (t : Text) :
    pieces separator (trimEnd t) = pieces separator t := by
  induction t using List.reverseRecOn with
  | nil => rfl
  | append_singleton t c ih =>
    by_cases hc : isBlank c = true
    · have hne : c ≠ separator := by
        rintro rfl
        rw [h] at hc
        cases hc
      rw [trimEnd_concat hc, ih, pieces_concat hc hne]
    · exact congrArg _ (List.rdropWhile_concat_neg isBlank t c hc)

/-- Trimming a list of values changes none of its pieces. -/
theorem pieces_trim {separator : Char} (h : isBlank separator = false) (t : Text) :
    pieces separator (trim t) = pieces separator t := by
  rw [trim, pieces_trimEnd h, pieces_trimStart h]

theorem pieces_append_of_blank {separator : Char} (h : isBlank separator = false) {gap : Text}
    (hgap : ∀ c ∈ gap, isBlank c = true) (t : Text) :
    pieces separator (gap ++ t) = pieces separator t := by
  have htrim := trim_append_of_blank hgap (List.forall_mem_nil _) t
  rw [List.append_nil] at htrim
  rw [← pieces_trim h, htrim, pieces_trim h]

/-- Joining takes pieces together that come apart again, also with white space after the
separators. -/
theorem pieces_join {separator : Char} (h : isBlank separator = false) {gap : Text}
    (hgap : ∀ c ∈ gap, isBlank c = true) {parts : List Text}
    (hparts : ∀ part ∈ parts, part.IsPiece separator) :
    pieces separator (join (separator :: gap) parts) = parts := by
  induction parts with
  | nil => rfl
  | cons first parts ih =>
    have hfirst : pieces separator first = [first] := (hparts first (by simp)).pieces_eq
    cases parts with
    | nil => rwa [join_singleton]
    | cons second parts =>
      have hrest := ih fun part hpart => hparts part (by simp [hpart])
      rw [join_cons_cons, List.append_assoc, List.cons_append, pieces_append, hfirst,
        pieces_append_of_blank h hgap, hrest]
      rfl

/-- Nothing else comes apart as it was. -/
theorem pieces_join_eq_self_iff {separator : Char} (h : isBlank separator = false) {gap : Text}
    (hgap : ∀ c ∈ gap, isBlank c = true) {parts : List Text} :
    pieces separator (join (separator :: gap) parts) = parts ↔
      ∀ part ∈ parts, part.IsPiece separator := by
  refine ⟨fun hself part hpart => ?_, pieces_join h hgap⟩
  rw [← hself] at hpart
  exact isPiece_of_mem_pieces hpart

theorem trim_eq_nil_iff {t : Text} : trim t = [] ↔ ∀ c ∈ t, isBlank c = true := by
  constructor
  · intro h c hc
    have hrest : ∀ c ∈ trimStart t, isBlank c = true := List.rdropWhile_eq_nil_iff.mp h
    rw [← List.takeWhile_append_dropWhile (p := isBlank) (l := t), List.mem_append] at hc
    rcases hc with hc | hc
    · exact List.mem_takeWhile_imp hc
    · exact hrest c hc
  · intro h
    have hblank := trim_append_of_blank h (List.forall_mem_nil _) []
    rwa [List.append_nil, List.append_nil] at hblank

/-- Splitting drops the separators and nothing else. -/
theorem flatten_splitOn (separator : Char) (t : Text) :
    (splitOn separator t).flatten = t.filter (· ≠ separator) := by
  induction t with
  | nil => rfl
  | cons c t ih =>
    rw [splitOn]
    split
    · next hc => rw [List.flatten_cons, ih, List.filter_cons_of_neg (by simpa using hc)]; rfl
    · next hc =>
      obtain ⟨part, parts, hsplit⟩ := List.exists_cons_of_ne_nil (splitOn_ne_nil separator t)
      rw [hsplit, List.flatten_cons] at ih
      rw [hsplit, List.filter_cons_of_pos (by simpa using hc), ← ih]
      rfl

/-- A list of values has no pieces if there is nothing in it but separators and white space. -/
theorem pieces_eq_nil_iff {separator : Char} {t : Text} :
    pieces separator t = [] ↔ ∀ c ∈ t, c = separator ∨ isBlank c = true := by
  have hparts : pieces separator t = [] ↔
      ∀ part ∈ splitOn separator t, ∀ c ∈ part, isBlank c = true := by
    rw [pieces, List.filterMap_eq_nil_iff]
    refine forall₂_congr fun part _ => ?_
    rw [← trim_eq_nil_iff, nonBlank?_eq_ite]
    simp
  rw [hparts, ← List.forall_mem_flatten, flatten_splitOn]
  simp only [List.mem_filter, decide_eq_true_eq, and_imp, or_iff_not_imp_left]

end ProjectFile.Text
