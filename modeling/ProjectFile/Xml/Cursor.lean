import ProjectFile.Text.Utf8
import ProjectFile.Xml.Character
import ProjectFile.Xml.Error

/-!
Reading from a place in a text. A cursor is a position and the text from there on; each reader
gives what it read and the cursor after it, or the reason why it could not.
-/

namespace ProjectFile.Xml

/-- A place in a text and the text from there on. -/
structure Cursor where
  position : Position
  rest : Text

/-- A name with the namespace prefix it is written with, `[]` if it has none. -/
structure QName where
  label : Text
  name : Text
deriving DecidableEq

def QName.text (q : QName) : Text := if q.label.isEmpty then q.name else q.label ++ ":" ++ q.name

/-- The name that a run of name characters is: at most one colon, and each part but an empty
prefix starts as names do. -/
def QName.ofText? (t : Text) : Option QName :=
  match Text.splitOn ':' t with
  | [name] => if starts name then some ⟨[], name⟩ else none
  | [label, name] =>
    if (label.isEmpty || starts label) && starts name then some ⟨label, name⟩ else none
  | _ => none
where
  /-- Whether the part is not empty and starts as a name does. -/
  starts : Text → Bool
    | [] => false
    | c :: _ => isNameStart c

namespace Cursor

def ofText (t : Text) : Cursor := ⟨.start, t⟩

def drop (c : Cursor) (n : Nat) : Cursor := ⟨c.position.after (c.rest.take n), c.rest.drop n⟩

/-- The cursor after the longest run of characters of a class. -/
def skipWhile (c : Cursor) (p : Char → Bool) : Cursor :=
  ⟨c.position.after (c.rest.takeWhile p), c.rest.dropWhile p⟩

def skipSpaces (c : Cursor) : Cursor := c.skipWhile isSpace

def atSpace (c : Cursor) : Bool :=
  match c.rest with
  | [] => false
  | x :: _ => isSpace x

def looksAt (c : Cursor) (t : Text) : Bool := c.rest.startsWith t

def expect (c : Cursor) (x : Char) : Except Error Cursor :=
  match c.rest with
  | [] => .error .unexpectedEnd
  | y :: _ =>
    if y = x then .ok (c.drop 1)
    else .error (.expectedByte x (Text.firstByte y) c.position)

def expectText (c : Cursor) (t : Text) : Except Error Cursor :=
  if c.looksAt t then .ok (c.drop t.length) else .error (.expectedText t c.position)

/-- The beginning of a text before the first place where `stop` holds of what follows. -/
def beginning (stop : Text → Bool) : Text → Text
  | [] => []
  | c :: r => if stop (c :: r) then [] else c :: beginning stop r

/-- The first character of `t` that no document may contain, as the error it makes at `p`. -/
def illegal? (p : Position) : Text → Option Error
  | [] => none
  | c :: r => if isLegal c then illegal? (p.next c) r else some (.illegalCharacter c p)

/-- The text up to the first place where `stop` holds of what follows, or up to the end. -/
def takeUntil (c : Cursor) (stop : Text → Bool) : Except Error (Text × Cursor) :=
  let read := beginning stop c.rest
  match illegal? c.position read with
  | some e => .error e
  | none => .ok (read, c.drop read.length)

/-- A name with an optional prefix. -/
def qname (c : Cursor) : Except Error (QName × Cursor) :=
  let run := c.rest.takeWhile isNameChar
  match QName.ofText? run with
  | some q => .ok (q, c.drop run.length)
  | none => .error (.invalidName c.position)

/-- A name in which colons are ordinary characters. -/
def plainName (c : Cursor) : Except Error (Text × Cursor) :=
  let run := c.rest.takeWhile isNameChar
  if QName.ofText?.starts run then .ok (run, c.drop run.length)
  else .error (.invalidName c.position)

def quote (c : Cursor) : Except Error (Char × Cursor) :=
  match c.rest with
  | [] => .error .unexpectedEnd
  | x :: _ =>
    if x = '"' || x = '\'' then .ok (x, c.drop 1)
    else .error (.expectedQuote (Text.firstByte x) c.position)

/-- White space, which has to be there unless the end of the declaration or of the text is. -/
def spaceInDeclaration (c : Cursor) : Except Error Cursor :=
  match c.rest with
  | [] => .ok c
  | x :: _ =>
    if isSpace x then .ok c.skipSpaces
    else if c.looksAt "?>" then .ok c
    else .error (.expectedSpace (Text.firstByte x) c.position)

end Cursor

/-- A name and a quoted value, as written; the value may contain anything but its quote and
`<`. -/
structure RawAttribute where
  name : QName
  place : Position
  value : Text
  valuePlace : Position

def Cursor.rawAttribute (c : Cursor) : Except Error (RawAttribute × Cursor) := do
  let (name, afterName) ← c.qname
  let afterEquals ← afterName.skipSpaces.expect '='
  let (mark, inside) ← afterEquals.skipSpaces.quote
  let (value, afterValue) ← inside.takeUntil fun t => t.startsWith [mark] || t.startsWith "<"
  let rest ← afterValue.expect mark
  .ok (⟨name, c.position, value, inside.position⟩, rest)

end ProjectFile.Xml
