import ProjectFile.Json.Writer
import ProjectFile.Proofs.Json.Complete

/-!
What the writer writes is JSON. The grammar allows the text of a value for that value and, since the
reader reads it back, for no other. Of a value only its numbers matter for this: they are written as
the digits that they are made of, so these have to be numbers.
-/

namespace ProjectFile.Json

/-! Strings -/

/-- A character is written with a backslash and a letter, as its number, or as itself. -/
theorem writtenChar_cases (c : Char) :
    (∃ e, escaped? e = some c ∧ writtenChar c = ['\\', e]) ∨
    (c.toNat < 0x20 ∧ writtenChar c = '\\' :: 'u' :: fourDigits c.toNat) ∨
    (0x20 ≤ c.toNat ∧ c ≠ '"' ∧ c ≠ '\\' ∧ writtenChar c = [c]) := by
  by_cases hshort : c = '"' ∨ c = '\\' ∨ c = '\x08' ∨ c = '\t' ∨ c = '\n' ∨ c = '\x0c' ∨ c = '\r'
  · left
    rcases hshort with rfl | rfl | rfl | rfl | rfl | rfl | rfl
    · exact ⟨'"', rfl, rfl⟩
    · exact ⟨'\\', rfl, rfl⟩
    · exact ⟨'b', rfl, rfl⟩
    · exact ⟨'t', rfl, rfl⟩
    · exact ⟨'n', rfl, rfl⟩
    · exact ⟨'f', rfl, rfl⟩
    · exact ⟨'r', rfl, rfl⟩
  · simp only [not_or] at hshort
    obtain ⟨hquote, hescape, hbackspace, htab, hfeed, hform, hreturn⟩ := hshort
    rw [writtenChar, if_neg hquote, if_neg hescape, if_neg hbackspace, if_neg htab, if_neg hfeed,
      if_neg hform, if_neg hreturn]
    by_cases hcontrol : c.toNat < 0x20
    · rw [if_pos hcontrol]
      exact .inr (.inl ⟨hcontrol, rfl⟩)
    · rw [if_neg hcontrol]
      exact .inr (.inr ⟨by omega, hquote, hescape, rfl⟩)

/-- The four digits of a control character name it. -/
theorem unit?_fourDigits {n : Nat} (h : n < 0x20) :
    ∃ a b c d, fourDigits n = [a, b, c, d] ∧ unit? a b c d = some n := by
  have hall : ∀ n < 0x20,
      let c := (fourDigits n).getD 2 '0'
      let d := (fourDigits n).getD 3 '0'
      fourDigits n = ['0', '0', c, d] ∧ unit? '0' '0' c d = some n := by decide
  exact ⟨'0', '0', _, _, hall n h⟩

/-- However a character is written, it is one part of a string and stands for itself. -/
theorem exists_spellsPart (c : Char) : ∃ part, SpellsPart part (writtenChar c) ∧
    ∀ {parts t}, StandsFor parts t → StandsFor (part :: parts) (c :: t) := by
  rcases writtenChar_cases c with ⟨e, he, h⟩ | ⟨hcontrol, h⟩ | ⟨hprintable, hquote, hescape, h⟩
  · exact ⟨.character c, h ▸ .escape he, .character c⟩
  · obtain ⟨p, q, r, s, hdigits, hunit⟩ := unit?_fourDigits hcontrol
    rw [h, hdigits]
    exact ⟨.unit c.toNat, .unit hunit, .unit c⟩
  · exact ⟨.character c, h ▸ .plain hprintable hquote hescape, .character c⟩

theorem spellsString_flatMap (t : Text) : SpellsString (some t) (t.flatMap writtenChar) := by
  have hparts : ∃ parts, Spells parts (t.flatMap writtenChar) ∧ StandsFor parts t := by
    induction t with
    | nil => exact ⟨[], .nil, .nil⟩
    | cons c t ih =>
      obtain ⟨part, hpart, hstands⟩ := exists_spellsPart c
      obtain ⟨parts, hspells, hrest⟩ := ih
      exact ⟨part :: parts, .cons hpart hspells, hstands hrest⟩
  obtain ⟨parts, hspells, hstands⟩ := hparts
  exact spellsString_of_standsFor hspells hstands

/-- What stands between the quotes of a string. -/
def spelled : Option Text → Text
  | some t => t.flatMap writtenChar
  | none => "\\ud800"

theorem writtenString_eq (value? : Option Text) :
    writtenString value? = '"' :: spelled value? ++ ['"'] := by
  cases value? with
  | none => rfl
  | some t => rfl

theorem spellsString_spelled (value? : Option Text) : SpellsString value? (spelled value?) := by
  cases value? with
  | some t => exact spellsString_flatMap t
  | none =>
    refine ⟨[.unit 0xD800], .cons (.unit (by decide)) .nil, fun t => ⟨fun h => ?_, fun h => ?_⟩⟩
    · cases h
    · exact textOf?_of_standsFor h

/-! Lines -/

theorem isSpaces_margin (depth : Nat) : IsSpaces (margin depth) := by
  intro c hc
  rw [List.eq_of_mem_replicate hc]
  rfl

/-- A line end and the white space in front of the next line. -/
def lineEnd (depth : Nat) : Text := '\n' :: margin depth

theorem isSpaces_lineEnd (depth : Nat) : IsSpaces (lineEnd depth) := by
  intro c hc
  rcases List.mem_cons.mp hc with rfl | hc
  · rfl
  · exact isSpaces_margin depth c hc

/-- What is on lines of its own, given the line of each entry with what follows it: the last one is
followed by the line end before the closing bracket. -/
def lines {α β : Type} (line : α → Text → β) (init : List α) (last : α) (closing : Text) :
    List β :=
  init.map (line · []) ++ [line last closing]

theorem lines_ne_nil {α β : Type} (line : α → Text → β) (init : List α) (last : α)
    (closing : Text) : lines line init last closing ≠ [] := by
  simp [lines]

theorem map_lines {α β γ : Type} {line : α → Text → β} {f : β → γ} {g : α → γ}
    (h : ∀ a after, f (line a after) = g a) (init : List α) (last : α) (closing : Text) :
    (lines line init last closing).map f = (init ++ [last]).map g := by
  simp [lines, h]

theorem of_mem_lines {α β : Type} {line : α → Text → β} {init : List α} {last : α} {depth : Nat}
    {b : β} (h : b ∈ lines line init last (lineEnd depth)) :
    ∃ a ∈ init ++ [last], ∃ after, IsSpaces after ∧ b = line a after := by
  rcases List.mem_append.mp h with h | h
  · obtain ⟨a, ha, rfl⟩ := List.mem_map.mp h
    exact ⟨a, List.mem_append_left _ ha, [], by decide, rfl⟩
  · obtain rfl := List.mem_singleton.mp h
    exact ⟨last, by simp, _, isSpaces_lineEnd depth, rfl⟩

theorem join_cons_of_ne_nil (separator first : Text) {parts : List Text} (h : parts ≠ []) :
    Text.join separator (first :: parts) = first ++ (separator ++ Text.join separator parts) := by
  obtain ⟨second, rest, rfl⟩ := List.exists_cons_of_ne_nil h
  rw [Text.join_cons_cons, List.append_assoc]

/-- Bracketed lines are entries between commas, each of them with its white space. -/
theorem join_lines {α : Type} (written : α → Text) (indent closing : Text) (init : List α)
    (last : α) :
    Text.join "," (lines (fun a after => '\n' :: indent ++ written a ++ after) init last closing) =
      '\n' :: Text.join ",\n" (((init ++ [last]).map written).map (indent ++ ·)) ++ closing := by
  induction init with
  | nil =>
    rw [lines, List.map_nil, List.nil_append, Text.join_singleton, List.nil_append,
      List.map_singleton, List.map_singleton, Text.join_singleton]
    rfl
  | cons a init ih =>
    have hcomma := join_cons_of_ne_nil "," ('\n' :: indent ++ written a)
      (lines_ne_nil (fun a after => '\n' :: indent ++ written a ++ after) init last closing)
    have hline := join_cons_of_ne_nil ",\n" (indent ++ written a)
      (show ((init ++ [last]).map written).map (indent ++ ·) ≠ [] by simp)
    change Text.join "," (('\n' :: indent ++ written a ++ []) :: lines _ init last closing) =
      '\n' :: Text.join ",\n" ((indent ++ written a) ::
        ((init ++ [last]).map written).map (indent ++ ·)) ++ closing
    rw [List.append_nil, hcomma, hline, ih]
    simp only [List.append_assoc, List.cons_append]
    rfl

theorem bracketed_eq {α : Type} (depth : Nat) (opening closing : Text) (written : α → Text)
    (init : List α) (last : α) :
    bracketed depth opening closing ((init ++ [last]).map written) =
      opening ++ Text.join "," (lines (fun a after => lineEnd (depth + 1) ++ written a ++ after)
        init last (lineEnd depth)) ++ closing := by
  have hlines := join_lines written (margin (depth + 1)) (lineEnd depth) init last
  rw [bracketed, if_neg (by simp)]
  simp only [List.append_assoc, lineEnd, List.cons_append] at hlines ⊢
  rw [hlines]
  simp only [List.append_assoc, List.cons_append]
  rfl

/-! Values -/

/-- Whether what stands for numbers in a value are numbers. -/
inductive IsProper : Json → Prop
  | null : IsProper .null
  | bool (b : Bool) : IsProper (.bool b)
  | number {digits : Text} (number : IsNumber digits) : IsProper (.number digits)
  | string (value? : Option Text) : IsProper (.string value?)
  | array {elements : List Json} (proper : ∀ v ∈ elements, IsProper v) : IsProper (.array elements)
  | object {members : List (Option Text × Json)} (proper : ∀ m ∈ members, IsProper m.2) :
      IsProper (.object members)

theorem writtenElements_eq_map (depth : Nat) (elements : List Json) :
    writtenElements depth elements = elements.map (written depth) := by
  induction elements with
  | nil => rfl
  | cons v elements ih => rw [writtenElements, ih, List.map_cons]

def writtenMember (depth : Nat) (m : Option Text × Json) : Text :=
  writtenString m.1 ++ ": " ++ written depth m.2

theorem writtenMembers_eq_map (depth : Nat) (members : List (Option Text × Json)) :
    writtenMembers depth members = members.map (writtenMember depth) := by
  induction members with
  | nil => rfl
  | cons m members ih => rw [writtenMembers, ih, List.map_cons, writtenMember]

theorem written_array (depth : Nat) (elements : List Json) : written depth (.array elements) =
    bracketed depth "[" "]" (elements.map (written (depth + 1))) := by
  rw [← writtenElements_eq_map]
  rfl

theorem written_object (depth : Nat) (members : List (Option Text × Json)) :
    written depth (.object members) =
      bracketed depth "\x7b" "\x7d" (members.map (writtenMember (depth + 1))) := by
  rw [← writtenMembers_eq_map]
  rfl

/-- An element on a line of its own. -/
def Element.line (depth : Nat) (v : Json) (after : Text) : Element where
  before := lineEnd depth
  value := v
  text := written depth v
  after := after

/-- A member on a line of its own. -/
def Member.line (depth : Nat) (m : Option Text × Json) (after : Text) : Member where
  before := lineEnd depth
  name? := m.1
  spelling := spelled m.1
  after := []
  element := ⟨" ", m.2, written depth m.2, after⟩

theorem Member.padded_line (depth : Nat) (m : Option Text × Json) (after : Text) :
    (Member.line depth m after).padded = lineEnd depth ++ writtenMember depth m ++ after := by
  rw [writtenMember, writtenString_eq]
  simp only [padded, line, Element.padded, List.append_assoc, List.cons_append]
  rfl

theorem writes_array {depth : Nat} {elements : List Json}
    (h : ∀ v ∈ elements, Writes v (written (depth + 1) v)) :
    Writes (.array elements) (written depth (.array elements)) := by
  rw [written_array]
  rcases List.eq_nil_or_concat elements with rfl | ⟨init, last, rfl⟩
  · exact .noElements (by decide)
  · rw [List.concat_eq_append] at h ⊢
    have hwrites := Writes.array (lines_ne_nil (Element.line (depth + 1)) init last (lineEnd depth))
      (fun e he => ?_) (fun e he => ?_)
    · rw [bracketed_eq]
      rw [map_lines (f := Element.value) (g := id) (fun _ _ => rfl), List.map_id] at hwrites
      simpa [lines, Element.line, Element.padded, Function.comp_def] using hwrites
    · obtain ⟨v, -, after, hafter, rfl⟩ := of_mem_lines he
      exact ⟨isSpaces_lineEnd _, hafter⟩
    · obtain ⟨v, hv, after, -, rfl⟩ := of_mem_lines he
      exact h v hv

theorem writes_object {depth : Nat} {members : List (Option Text × Json)}
    (h : ∀ m ∈ members, Writes m.2 (written (depth + 1) m.2)) :
    Writes (.object members) (written depth (.object members)) := by
  rw [written_object]
  rcases List.eq_nil_or_concat members with rfl | ⟨init, last, rfl⟩
  · exact .noMembers (by decide)
  · rw [List.concat_eq_append] at h ⊢
    have hwrites := Writes.object (lines_ne_nil (Member.line (depth + 1)) init last (lineEnd depth))
      (fun m hm => ?_) (fun m hm => ?_) (fun m hm => ?_)
    · rw [bracketed_eq]
      rw [map_lines (f := fun m : Member => (m.name?, m.element.value)) (g := id)
        (fun _ _ => rfl), List.map_id] at hwrites
      simpa [lines, Member.padded_line, Function.comp_def] using hwrites
    · obtain ⟨m, -, after, hafter, rfl⟩ := of_mem_lines hm
      exact ⟨isSpaces_lineEnd _, (by decide : IsSpaces []), (by decide : IsSpaces " "), hafter⟩
    · obtain ⟨m, -, after, -, rfl⟩ := of_mem_lines hm
      exact spellsString_spelled m.1
    · obtain ⟨m, hmem, after, -, rfl⟩ := of_mem_lines hm
      exact h m hmem

/-- What is written for a value writes it, at any depth. -/
theorem writes_written {v : Json} (h : v.IsProper) (depth : Nat) : Writes v (written depth v) := by
  induction h generalizing depth with
  | null => exact .null
  | bool b =>
    cases b with
    | true => exact .isTrue
    | false => exact .isFalse
  | number number => exact .number number
  | string value? =>
    change Writes _ (writtenString value?)
    rw [writtenString_eq]
    exact .string (spellsString_spelled value?)
  | array proper ih => exact writes_array fun v hv => ih v hv (depth + 1)
  | object proper ih => exact writes_object fun m hm => ih m hm (depth + 1)

theorem Writes.parse {v : Json} {t : Text} (h : Writes v t) : Json.parse t = some v := by
  have hnone : IsSpaces [] := by decide
  have hread := parse_of_writes h hnone hnone
  rwa [List.append_nil] at hread

/-- A text writes at most one value. -/
theorem Writes.unique {v w : Json} {t : Text} (hv : Writes v t) (hw : Writes w t) : v = w :=
  Option.some.inj (hv.parse.symm.trans hw.parse)

end ProjectFile.Json
