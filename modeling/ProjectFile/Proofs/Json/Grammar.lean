import ProjectFile.Json.Reader

/-!
The grammar of JSON, as texts that write a value. Strings may be spelled in several ways, members
come in any order, and white space may stand around every element, name and value. What a string
stands for is told by its UTF-16 units: a surrogate means nothing without its other half.
-/

namespace ProjectFile.Json

def IsSpaces (t : Text) : Prop := ∀ c ∈ t, isSpace c = true

instance (t : Text) : Decidable (IsSpaces t) :=
  decidable_of_iff (t.all isSpace = true) (by simp [IsSpaces])

def IsDigits (t : Text) : Prop := t ≠ [] ∧ ∀ c ∈ t, c.isDigit = true

instance (t : Text) : Decidable (IsDigits t) :=
  decidable_of_iff (t ≠ [] ∧ t.all Char.isDigit = true) (by simp [IsDigits])

/-- The digits before the point. A zero at the start stands alone. -/
def IsWhole (t : Text) : Prop := IsDigits t ∧ (t.head? = some '0' → t = ['0'])

instance (t : Text) : Decidable (IsWhole t) := inferInstanceAs (Decidable (_ ∧ _))

def IsFraction (t : Text) : Prop := t = [] ∨ ∃ run, IsDigits run ∧ t = '.' :: run

def IsExponent (t : Text) : Prop :=
  t = [] ∨ ∃ e sign run, (e = 'e' ∨ e = 'E') ∧ (sign = [] ∨ sign = ['+'] ∨ sign = ['-']) ∧
    IsDigits run ∧ t = e :: (sign ++ run)

def IsNumber (t : Text) : Prop :=
  ∃ sign whole part power, (sign = [] ∨ sign = ['-']) ∧ IsWhole whole ∧ IsFraction part ∧
    IsExponent power ∧ t = sign ++ whole ++ part ++ power

/-- The spellings of one part of a string. -/
inductive SpellsPart : StringPart → Text → Prop
  | plain {c : Char} (printable : 0x20 ≤ c.toNat) (quote : c ≠ '"') (escape : c ≠ '\\') :
      SpellsPart (.character c) [c]
  | escape {e c : Char} (stands : escaped? e = some c) : SpellsPart (.character c) ['\\', e]
  | unit {a b c d : Char} {n : Nat} (stands : unit? a b c d = some n) :
      SpellsPart (.unit n) ['\\', 'u', a, b, c, d]

inductive Spells : List StringPart → Text → Prop
  | nil : Spells [] []
  | cons {part : StringPart} {parts : List StringPart} {s t : Text} (first : SpellsPart part s)
      (rest : Spells parts t) : Spells (part :: parts) (s ++ t)

/-- What the parts of a string stand for. -/
inductive StandsFor : List StringPart → Text → Prop
  | nil : StandsFor [] []
  | character (c : Char) {parts : List StringPart} {t : Text} (rest : StandsFor parts t) :
      StandsFor (.character c :: parts) (c :: t)
  | unit (c : Char) {parts : List StringPart} {t : Text} (rest : StandsFor parts t) :
      StandsFor (.unit c.toNat :: parts) (c :: t)
  | pair {c : Char} {high low : Nat} {parts : List StringPart} {t : Text}
      (isHigh : isHigh high = true) (isLow : isLow low = true)
      (units : c.toNat = 0x10000 + (high - 0xD800) * 0x400 + (low - 0xDC00))
      (rest : StandsFor parts t) : StandsFor (.unit high :: .unit low :: parts) (c :: t)

/-- The spellings, without the quotes, of a string that stands for a text, or of one that stands
for none. -/
def SpellsString (value? : Option Text) (s : Text) : Prop :=
  ∃ parts, Spells parts s ∧ ∀ t, value? = some t ↔ StandsFor parts t

/-- A value as it is written among others, with white space around it. -/
structure Element where
  before : Text
  value : Json
  text : Text
  after : Text

def Element.padded (e : Element) : Text := e.before ++ e.text ++ e.after

def Element.IsSpaced (e : Element) : Prop := IsSpaces e.before ∧ IsSpaces e.after

instance (e : Element) : Decidable e.IsSpaced := inferInstanceAs (Decidable (_ ∧ _))

/-- A member as it is written, with white space around its name and its value. -/
structure Member where
  before : Text
  name? : Option Text
  spelling : Text
  after : Text
  element : Element

def Member.padded (m : Member) : Text :=
  m.before ++ '"' :: m.spelling ++ '"' :: m.after ++ ':' :: m.element.padded

def Member.IsSpaced (m : Member) : Prop :=
  IsSpaces m.before ∧ IsSpaces m.after ∧ m.element.IsSpaced

instance (m : Member) : Decidable m.IsSpaced := inferInstanceAs (Decidable (_ ∧ _))

/-- The texts that write a value, with no white space around it. -/
inductive Writes : Json → Text → Prop
  | null : Writes .null "null"
  | isTrue : Writes (.bool true) "true"
  | isFalse : Writes (.bool false) "false"
  | number {t : Text} (digits : IsNumber t) : Writes (.number t) t
  | string {value? : Option Text} {s : Text} (spells : SpellsString value? s) :
      Writes (.string value?) ('"' :: s ++ ['"'])
  | noElements {s : Text} (spaces : IsSpaces s) : Writes (.array []) ('[' :: s ++ [']'])
  | array {elements : List Element} (some : elements ≠ [])
      (spaced : ∀ e ∈ elements, e.IsSpaced) (written : ∀ e ∈ elements, Writes e.value e.text) :
      Writes (.array (elements.map Element.value))
        ('[' :: Text.join "," (elements.map Element.padded) ++ [']'])
  | noMembers {s : Text} (spaces : IsSpaces s) :
      Writes (.object []) ('\x7b' :: s ++ ['\x7d'])
  | object {members : List Member} (some : members ≠ [])
      (spaced : ∀ m ∈ members, m.IsSpaced)
      (named : ∀ m ∈ members, SpellsString m.name? m.spelling)
      (written : ∀ m ∈ members, Writes m.element.value m.element.text) :
      Writes (.object (members.map fun m => (m.name?, m.element.value)))
        ('\x7b' :: Text.join "," (members.map Member.padded) ++ ['\x7d'])

end ProjectFile.Json
