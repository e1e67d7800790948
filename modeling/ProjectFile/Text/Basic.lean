/-!
Text as a list of characters, with the operations every reader of project files needs: trimming
white space, splitting at a separator and keeping the pieces that say something, and joining. Lists
of bytes are split and joined in the same way.
-/

namespace ProjectFile

/-- A text is the list of its characters. -/
abbrev Text := List Char

/-- A literal may be written where a text is expected. -/
instance : Coe String Text := ⟨String.toList⟩

namespace Text

/-- The characters that have the Unicode property `White_Space`. -/
def isBlank (c : Char) : Bool :=
  let n := c.toNat
  (0x09 ≤ n && n ≤ 0x0D) || n == 0x20 || n == 0x85 || n == 0xA0 || n == 0x1680 ||
    (0x2000 ≤ n && n ≤ 0x200A) || n == 0x2028 || n == 0x2029 || n == 0x202F || n == 0x205F ||
    n == 0x3000

def trimStart (t : Text) : Text := t.dropWhile isBlank

def trimEnd (t : Text) : Text := (t.reverse.dropWhile isBlank).reverse

def trim (t : Text) : Text := trimEnd (trimStart t)

/-- The trimmed text, if anything is left of it. -/
def nonBlank? (t : Text) : Option Text :=
  match trim t with
  | [] => none
  | c :: r => some (c :: r)

section

variable {α : Type}

/-- The parts between the occurrences of `separator`; there is always at least one. -/
def splitOn [DecidableEq α] (separator : α) : List α → List (List α)
  | [] => [[]]
  | c :: r =>
    if c = separator then [] :: splitOn separator r
    else
      match splitOn separator r with
      | [] => [[c]]
      | part :: parts => (c :: part) :: parts

def join (separator : List α) (parts : List (List α)) : List α := separator.intercalate parts

def endsWith [BEq α] (t ending : List α) : Bool := ending.isSuffixOf t

end

/-- The parts between separators, trimmed, without those that are blank. -/
def pieces (separator : Char) (t : Text) : List Text :=
  (splitOn separator t).filterMap nonBlank?

def startsWith (t beginning : Text) : Bool := beginning.isPrefixOf t

def occursIn (part : Text) : Text → Bool
  | [] => part.isEmpty
  | c :: r => startsWith (c :: r) part || occursIn part r

def replace (old new : Char) (t : Text) : Text := t.map fun c => if c = old then new else c

def ofNat (n : Nat) : Text := Nat.toDigits 10 n

/-- The text with ASCII capitals in lower case. -/
def toLower (t : Text) : Text := t.map Char.toLower

def hex (n : Nat) : Text := Nat.toDigits 16 n

def hexDigit? (c : Char) : Option Nat :=
  if c.isDigit then some (c.toNat - '0'.toNat)
  else if 'a' ≤ c && c ≤ 'f' then some (c.toNat - 'a'.toNat + 10)
  else if 'A' ≤ c && c ≤ 'F' then some (c.toNat - 'A'.toNat + 10)
  else none

theorem nonBlank?_eq_ite (t : Text) :
    nonBlank? t = if trim t = [] then none else some (trim t) := by
  unfold nonBlank?
  split
  · next h => rw [if_pos h]
  · next h => rw [if_neg (by simp [h]), h]

/-- What is not blank among texts, trimmed, is what is not empty among the trimmed texts. -/
theorem filterMap_nonBlank? (ts : List Text) :
    ts.filterMap nonBlank? = (ts.map trim).filter (· ≠ []) := by
  induction ts with
  | nil => rfl
  | cons t ts ih =>
    rw [List.map_cons, List.filterMap_cons, nonBlank?_eq_ite, ih]
    by_cases h : trim t = []
    · rw [if_pos h, List.filter_cons_of_neg (by simpa using h)]
    · rw [if_neg h, List.filter_cons_of_pos (by simpa using h)]

section

variable {α : Type}

@[simp] theorem join_nil (separator : List α) : join separator [] = [] := rfl

@[simp] theorem join_singleton (separator part : List α) : join separator [part] = part :=
  List.intercalate_singleton

theorem join_cons_cons (separator first second : List α) (parts : List (List α)) :
    join separator (first :: second :: parts) =
      first ++ separator ++ join separator (second :: parts) := List.intercalate_cons_cons

theorem forall_mem_join {P : α → Prop} {separator : List α} {parts : List (List α)}
    (hseparator : ∀ c ∈ separator, P c) (h : ∀ part ∈ parts, ∀ c ∈ part, P c) :
    ∀ c ∈ join separator parts, P c := by
  induction parts with
  | nil => simp
  | cons first parts ih =>
    have hfirst : ∀ c ∈ first, P c := h first (by simp)
    cases parts with
    | nil => rwa [join_singleton]
    | cons second parts =>
      have hrest := ih fun part hp => h part (by simp [hp])
      rw [join_cons_cons]
      exact List.forall_mem_append.mpr ⟨List.forall_mem_append.mpr ⟨hfirst, hseparator⟩, hrest⟩

variable [DecidableEq α]

theorem splitOn_ne_nil (separator : α) (t : List α) : splitOn separator t ≠ [] := by
  cases t with
  | nil => simp [splitOn]
  | cons c r =>
    rw [splitOn]
    split
    · simp
    · split <;> simp

theorem splitOn_of_not_mem {separator : α} {t : List α} (h : separator ∉ t) :
    splitOn separator t = [t] := by
  induction t with
  | nil => rfl
  | cons c r ih =>
    have hc : c ≠ separator := fun e => h (by simp [e])
    have hr : separator ∉ r := fun m => h (List.mem_cons_of_mem _ m)
    simp [splitOn, hc, ih hr]

/-- Splitting gives the parts back that a separator was put between. -/
theorem splitOn_append_cons {separator : α} {t : List α} (h : separator ∉ t) (r : List α) :
    splitOn separator (t ++ separator :: r) = t :: splitOn separator r := by
  induction t with
  | nil => simp [splitOn]
  | cons c t ih =>
    have hc : c ≠ separator := fun e => h (by simp [e])
    have ht : separator ∉ t := fun m => h (List.mem_cons_of_mem _ m)
    simp [splitOn, hc, ih ht]

/-- Joining takes parts together that splitting takes apart, if they hold no separator. -/
theorem splitOn_join {separator : α} {parts : List (List α)} (hne : parts ≠ [])
    (h : ∀ part ∈ parts, separator ∉ part) :
    splitOn separator (join [separator] parts) = parts := by
  induction parts with
  | nil => exact absurd rfl hne
  | cons first parts ih =>
    have hfirst : separator ∉ first := h first (by simp)
    cases parts with
    | nil => rw [join_singleton, splitOn_of_not_mem hfirst]
    | cons second parts =>
      rw [join_cons_cons, List.append_assoc, List.singleton_append, splitOn_append_cons hfirst,
        ih (by simp) fun part hp => h part (by simp [hp])]

/-- The parts of a text in which each line is ended: the lines, and what is behind the last. -/
theorem splitOn_flatMap_concat {separator : α} {lines : List (List α)}
    (h : ∀ line ∈ lines, separator ∉ line) :
    splitOn separator (lines.flatMap fun line => line ++ [separator]) = lines ++ [[]] := by
  induction lines with
  | nil => rfl
  | cons line lines ih =>
    rw [List.flatMap_cons, List.append_assoc, List.singleton_append,
      splitOn_append_cons (h line (by simp)), ih fun other hother => h other (by simp [hother])]
    rfl

/-- No part contains the separator. -/
theorem not_mem_of_mem_splitOn {separator : α} {t part : List α}
    (h : part ∈ splitOn separator t) : separator ∉ part := by
  induction t generalizing part with
  | nil => simp_all [splitOn]
  | cons c r ih =>
    rw [splitOn] at h
    split at h
    · rcases List.mem_cons.mp h with rfl | h
      · simp
      · exact ih h
    · next hc =>
      split at h
      · next hnil => exact absurd hnil (splitOn_ne_nil _ _)
      · next first parts hcons =>
        rcases List.mem_cons.mp h with rfl | h
        · have h : separator ∉ first := ih (by simp [hcons])
          simpa [Ne.symm hc] using h
        · exact ih (by simp [hcons, h])

/-- The parts of two texts with a separator between them are those of one and of the other. -/
theorem splitOn_append (separator : α) (s t : List α) :
    splitOn separator (s ++ separator :: t) = splitOn separator s ++ splitOn separator t := by
  induction s with
  | nil => simp [splitOn]
  | cons c s ih =>
    by_cases hc : c = separator
    · simp [splitOn, hc, ih]
    · obtain ⟨part, parts, hsplit⟩ := List.exists_cons_of_ne_nil (splitOn_ne_nil separator s)
      simp [splitOn, hc, ih, hsplit]

theorem eq_nil_of_splitOn {separator : α} {t : List α} (h : splitOn separator t = [[]]) :
    t = [] := by
  cases t with
  | nil => rfl
  | cons c r =>
    rw [splitOn] at h
    split at h
    · exact absurd (List.cons.inj h).2 (splitOn_ne_nil separator r)
    · split at h <;> simp at h

theorem mem_tail_splitOn_of_endsWith {separator : α} {t : List α}
    (h : endsWith t [separator] = true) : [] ∈ (splitOn separator t).tail := by
  obtain ⟨front, rfl⟩ := List.isSuffixOf_iff_suffix.mp h
  obtain ⟨first, parts, hsplit⟩ := List.exists_cons_of_ne_nil (splitOn_ne_nil separator front)
  rw [splitOn_append, hsplit]
  simp [splitOn]

end

theorem pieces_append (separator : Char) (s t : Text) :
    pieces separator (s ++ separator :: t) = pieces separator s ++ pieces separator t := by
  rw [pieces, splitOn_append, List.filterMap_append]
  rfl

theorem ofNat_injective : Function.Injective ofNat := by
  intro m n h
  have hread : Nat.ofDigitChars 10 (ofNat m) 0 = Nat.ofDigitChars 10 (ofNat n) 0 := by rw [h]
  rwa [ofNat, ofNat, Nat.ofDigitChars_toDigits (by decide) (by decide),
    Nat.ofDigitChars_toDigits (by decide) (by decide)] at hread

theorem isDigit_of_mem_ofNat {n : Nat} {c : Char} (h : c ∈ ofNat n) : c.isDigit = true :=
  Nat.isDigit_of_mem_toDigits (by decide) (by decide) h

/-- Of texts that are not empty there are no more than they have characters. -/
theorem length_le_length_flatMap {α : Type} {f : α → Text} (hf : ∀ a, f a ≠ []) (as : List α) :
    as.length ≤ (as.flatMap f).length := by
  induction as with
  | nil => exact Nat.le_refl 0
  | cons a as ih =>
    have hpos : 0 < (f a).length := List.length_pos_iff.mpr (hf a)
    simp only [List.flatMap_cons, List.length_append, List.length_cons]
    omega

end Text

end ProjectFile
