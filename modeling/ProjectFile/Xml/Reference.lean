import ProjectFile.Xml.Cursor

/-!
Character references, and what becomes of the text of an attribute value or a text run once its
references are known. Characters that come from references are kept as they are; line ends and, in
attribute values, tabs are normalized only where they are written literally.
-/

namespace ProjectFile.Xml

/-- What a reference stands for. -/
inductive Reference where
  | character (c : Char)
  | entity (name : Text)
deriving DecidableEq

/-- One character of a value, with whether a reference gave it. -/
inductive Piece where
  | literal (c : Char)
  | referred (c : Char)
deriving DecidableEq

namespace Reference

/-- The number with the given digits; there has to be one. -/
def number? (base : Nat) : Text → Option Nat
  | [] => none
  | digits => digits.foldlM (fun n c => (Text.hexDigit? c).bind fun d =>
      if d < base then some (n * base + d) else none) 0

/-- The character with the given code point: U+FFFD if there is none, and nothing if no document
may contain it or the number exceeds 32 bits. -/
def ofCodePoint? (n : Nat) : Option Reference :=
  if 0x100000000 ≤ n then none
  else
    let c := if n.isValidChar then Char.ofNat n else '\uFFFD'
    if isLegal c then some (.character c) else none

/-- What the text between `&` and `;` refers to. -/
def ofBody? : Text → Option Reference
  | '#' :: 'x' :: digits => (number? 16 digits).bind ofCodePoint?
  | '#' :: digits => (number? 10 digits).bind ofCodePoint?
  | name =>
    if name = "quot" then some (.character '"')
    else if name = "amp" then some (.character '&')
    else if name = "apos" then some (.character '\'')
    else if name = "lt" then some (.character '<')
    else if name = "gt" then some (.character '>')
    else if QName.ofText?.starts name && name.all isNameChar then some (.entity name)
    else none

end Reference

/-- The pieces of a text that stands at a position. The second argument is the reference that is
open there: where its `&` stands and its characters so far, last one first. -/
def piecesFrom : Position → Option (Position × Text) → Text → Except Error (List Piece)
  | _, none, [] => .ok []
  | _, some (start, _), [] => .error (.malformedReference start)
  | p, none, c :: r =>
    if c = '&' then piecesFrom (p.next c) (some (p, [])) r
    else (piecesFrom (p.next c) none r).map (.literal c :: ·)
  | p, some (start, body), c :: r =>
    if c = ';' then
      match Reference.ofBody? body.reverse with
      | none => .error (.malformedReference start)
      | some (.entity name) => .error (.unknownEntity name start)
      | some (.character x) => (piecesFrom (p.next c) none r).map (.referred x :: ·)
    else piecesFrom (p.next c) (some (start, c :: body)) r

def pieces (p : Position) (t : Text) : Except Error (List Piece) := piecesFrom p none t

/-- The value of an attribute: a literal tab or line end counts as a space, and a carriage return
with a line feed after it as one. -/
def attributeValue : List Piece → Text
  | [] => []
  | .referred c :: r => c :: attributeValue r
  | .literal '\r' :: .literal '\n' :: r => ' ' :: attributeValue r
  | .literal c :: r =>
    (if c = '\t' || c = '\n' || c = '\r' then ' ' else c) :: attributeValue r

/-- The characters of a text run: a literal carriage return, with or without a line feed after it,
is a line feed. One right before a reference stays, and so does one at the very end right after a
reference, which is what the flag tells. -/
def lineEnds : Bool → List Piece → Text
  | _, [] => []
  | _, .referred c :: r => c :: lineEnds true r
  | _, .literal '\r' :: .literal '\n' :: r => '\n' :: lineEnds false r
  | _, .literal '\r' :: .literal c :: r => '\n' :: lineEnds false (.literal c :: r)
  | _, .literal '\r' :: .referred c :: r => '\r' :: lineEnds false (.referred c :: r)
  | afterReference, [.literal '\r'] => [if afterReference then '\r' else '\n']
  | _, .literal c :: r => c :: lineEnds false r

/-- The characters of a run without references. -/
def plainLineEnds (t : Text) : Text := lineEnds false (t.map .literal)

end ProjectFile.Xml
