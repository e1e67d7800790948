import ProjectFile.Text.Basic

/-!
UTF-8: the bytes of a text, the text of some bytes, and lengths and offsets in bytes. Decoding goes
through `marks`, which tells well-formed sequences, with their characters, from the bytes that are
not part of one; strict and lossy decoding differ only in what they make of such bytes. A text can
be cut only where a character starts or the text ends.
-/

namespace ProjectFile

abbrev Bytes := List UInt8

namespace Text

def encode (t : Text) : Bytes := t.flatMap String.utf8EncodeChar

/-- A literal may be written where its bytes are expected. -/
instance : Coe String Bytes := ⟨fun s => encode s.toList⟩

/-- The beginning of a sequence: its bytes so far and how many are still to come. -/
structure Partial where
  first : UInt8
  more : Bytes
  missing : Nat

/-- What stands somewhere among bytes: a character, or the longest beginning of a sequence that
goes on as none does. -/
inductive Mark where
  | character (c : Char)
  | stray (bytes : Bytes)
deriving DecidableEq

namespace Mark

def character? : Mark → Option Char
  | .character c => some c
  | .stray _ => none

/-- The character, or else the one that stands for none. -/
def shown : Mark → Char
  | .character c => c
  | .stray _ => '\uFFFD'

end Mark

/-- How many bytes have to follow a first byte; `none` if no sequence starts with it. -/
def following (b : UInt8) : Option Nat :=
  if b < 0x80 then some 0
  else if b < 0xC2 then none
  else if b < 0xE0 then some 1
  else if b < 0xF0 then some 2
  else if b < 0xF5 then some 3
  else none

/-- Whether the byte may stand after the first one of a sequence. -/
def isContinuation (b : UInt8) : Bool := 0x80 ≤ b && b < 0xC0

/-- Whether `second` may follow `first`: no overlong sequence, no surrogate, nothing beyond
U+10FFFF. -/
def maySecond (first second : UInt8) : Bool :=
  if first == 0xE0 then 0xA0 ≤ second && second < 0xC0
  else if first == 0xED then 0x80 ≤ second && second < 0xA0
  else if first == 0xF0 then 0x90 ≤ second && second < 0xC0
  else if first == 0xF4 then 0x80 ≤ second && second < 0x90
  else isContinuation second

/-- Whether the sequence can go on with the byte. -/
def Partial.accepts (p : Partial) (b : UInt8) : Bool :=
  match p.more with
  | [] => maySecond p.first b
  | _ => isContinuation b

/-- The character of a complete sequence: each following byte carries six bits, and the first
one those that its length leaves. -/
def Partial.character (first : UInt8) (more : Bytes) : Char :=
  let modulus :=
    match more.length with
    | 0 => 0x80
    | 1 => 0x20
    | 2 => 0x10
    | _ => 0x08
  Char.ofNat (more.foldl (fun n b => n * 64 + b.toNat % 64) (first.toNat % modulus))

/-- The bytes of a sequence that does not go on. -/
def Partial.mark (p : Partial) : Mark := .stray (p.first :: p.more)

/-- What a byte that starts anew yields at once, and the sequence it opens. -/
def opening (b : UInt8) : List Mark × Option Partial :=
  match following b with
  | none => ([.stray [b]], none)
  | some 0 => ([.character (Partial.character b [])], none)
  | some (n + 1) => ([], some ⟨b, [], n + 1⟩)

/-- What an accepted byte yields at once, and the sequence still open after it. -/
def Partial.extend (p : Partial) (b : UInt8) : List Mark × Option Partial :=
  let more := p.more ++ [b]
  if p.missing ≤ 1 then ([.character (Partial.character p.first more)], none)
  else ([], some ⟨p.first, more, p.missing - 1⟩)

/-- What stands among the bytes, one after another; the first argument is the sequence that is open
where they start. -/
def marksFrom : Option Partial → Bytes → List Mark
  | none, [] => []
  | some p, [] => [p.mark]
  | none, b :: r =>
    let (out, pending) := opening b
    out ++ marksFrom pending r
  | some p, b :: r =>
    if p.accepts b then
      let (out, pending) := p.extend b
      out ++ marksFrom pending r
    else
      let (out, pending) := opening b
      p.mark :: out ++ marksFrom pending r

def marks (bytes : Bytes) : List Mark := marksFrom none bytes

/-- The text that the bytes encode, if all of them are well formed. -/
def decode? (bytes : Bytes) : Option Text := (marks bytes).mapM Mark.character?

/-- The text that the bytes encode, with U+FFFD for each ill-formed beginning of a sequence. -/
def decodeLossy (bytes : Bytes) : Text := (marks bytes).map Mark.shown

/-- The number of bytes that encode the text. -/
def byteLength : Text → Nat
  | [] => 0
  | c :: r => c.utf8Size + byteLength r

/-- Whether a character starts or the text ends at the offset, which counts bytes. -/
def isBoundary : Text → Nat → Bool
  | _, 0 => true
  | [], _ + 1 => false
  | c :: r, n + 1 => c.utf8Size ≤ n + 1 && isBoundary r (n + 1 - c.utf8Size)

@[simp] theorem isBoundary_zero (t : Text) : t.isBoundary 0 = true := by
  cases t <;> rfl

/-- The text before a boundary. A text cannot be cut at any other offset. -/
def before : (t : Text) → (n : Nat) → t.isBoundary n = true → Text
  | _, 0, _ => []
  | [], _ + 1, h => Bool.noConfusion h
  | c :: r, n + 1, h => c :: before r (n + 1 - c.utf8Size) (Bool.and_eq_true_iff.mp h).2

/-- The boundary at the offset or else the next one below it, looked for byte by byte. -/
def boundaryBelow (t : Text) : Nat → Nat
  | 0 => 0
  | n + 1 => if t.isBoundary (n + 1) then n + 1 else boundaryBelow t n

/-- The search stops at a boundary, at the latest at the start of the text. -/
theorem isBoundary_boundaryBelow (t : Text) (n : Nat) :
    t.isBoundary (t.boundaryBelow n) = true := by
  induction n with
  | zero => exact isBoundary_zero t
  | succ n ih =>
    rw [boundaryBelow]
    split
    · assumption
    · exact ih

/-- The text itself if it has at most `limit` bytes, else as much of it as fits and three dots. -/
def clip (limit : Nat) (t : Text) : Text :=
  if t.byteLength ≤ limit then t
  else t.before (t.boundaryBelow limit) (t.isBoundary_boundaryBelow limit) ++ "..."

/-- The first byte of a character, read as a Latin-1 character. -/
def firstByte (c : Char) : Char :=
  match String.utf8EncodeChar c with
  | [] => c
  | b :: _ => Char.ofNat b.toNat

end Text

end ProjectFile
