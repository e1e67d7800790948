import ProjectFile.Yaml.Number

/-!
Strings as YAML scalars. A string of several lines is a literal block where a block can hold it;
one that would be taken for something else is quoted; any other stands as it is if nothing in it
looks like structure. Double quotes can hold every string and are the last resort.
-/

namespace ProjectFile.Yaml

inductive Form where
  | plain
  | singleQuoted
  | doubleQuoted
  | literal
deriving DecidableEq

def isBreak (c : Char) : Bool :=
  c == '\n' || c == '\r' || c == '\u0085' || c == '\u2028' || c == '\u2029'

/-- Whether the character cannot stand in a document but as an escape: all controls but the line
feed, and three code points that are no characters of a document. -/
def needsEscape (c : Char) : Bool :=
  let n := c.toNat
  (n < 0x20 && n != 0x0A) || (0x7F ≤ n && n < 0xA0) || n == 0xFEFF || n == 0xFFFE || n == 0xFFFF

/-- The characters that no plain scalar starts with. -/
def indicators : Text := "#,[]\x7b\x7d&*!|>'\"%@`"

def anyNeighbours (p : Char → Char → Bool) : Text → Bool
  | a :: b :: rest => p a b || anyNeighbours p (b :: rest)
  | _ => false

/-- Whether a space stands right before the end of a line. -/
def hasSpaceBreak (t : Text) : Bool := anyNeighbours (fun a b => a == ' ' && isBreak b) t

/-- Whether a line starts with a space, the first line apart. -/
def hasBreakSpace (t : Text) : Bool := anyNeighbours (fun a b => isBreak a && b == ' ') t

/-- Whether the beginning of the text looks like structure. -/
def startsStructure (t : Text) : Bool :=
  t.startsWith "---" || t.startsWith "..." ||
    match t with
    | [] => false
    | c :: rest =>
      indicators.contains c || (c == '-' || c == '?') && (rest.isEmpty || rest.head? == some ' ')

/-- Whether the text may stand plainly where it is a value of its own. -/
def allowsPlain (t : Text) : Bool :=
  !(startsStructure t || t.startsWith " " || Text.endsWith t " " || t.any isBreak ||
    t.any needsEscape || Text.endsWith t ":" || anyNeighbours (fun a b => a == ':' && b == ' ') t ||
    anyNeighbours (fun a b => a == ' ' && b == '#') t)

def allowsSingleQuoted (t : Text) : Bool :=
  !(t.any needsEscape || hasSpaceBreak t || hasBreakSpace t)

def allowsLiteral (t : Text) : Bool :=
  !(t.any needsEscape || hasSpaceBreak t || Text.endsWith t " ")

def formOf (t : Text) : Form :=
  if t.contains '\n' then if allowsLiteral t then .literal else .doubleQuoted
  else if !isSpecial t && allowsPlain t then .plain
  else if allowsSingleQuoted t then .singleQuoted
  else .doubleQuoted

/-- The text with white space in front of each line; the flag tells whether a line starts here. -/
def indented (margin : Text) : Bool → Text → Text
  | _, [] => []
  | lineStart, c :: rest =>
    if isBreak c then c :: indented margin true rest
    else (if lineStart then margin else []) ++ c :: indented margin false rest

def endsInBreak (t : Text) : Bool := t.getLast?.any isBreak

/-- What follows the bar of a literal block: the depth of its lines if that cannot be seen from
them, and what happens to the line ends at its end. -/
def blockHints (t : Text) : Text :=
  (match t with
    | c :: _ => if c = ' ' || isBreak c then "2" else []
    | [] => []) ++
    match t.reverse with
    | a :: b :: _ => if !isBreak a then "-" else if isBreak b then "+" else []
    | [a] => if isBreak a then "+" else "-"
    | [] => "-"

/-- The upper-case hexadecimal digits of a number, at least `width` of them. -/
def upperHex (width n : Nat) : Text :=
  let digits := (Text.hex n).map Char.toUpper
  List.replicate (width - digits.length) '0' ++ digits

def doubleQuotedChar (c : Char) : Text :=
  if c = '"' then "\\\""
  else if c = '\\' then "\\\\"
  else if c = '\x00' then "\\0"
  else if c = '\x07' then "\\a"
  else if c = '\x08' then "\\b"
  else if c = '\t' then "\\t"
  else if c = '\n' then "\\n"
  else if c = '\x0b' then "\\v"
  else if c = '\x0c' then "\\f"
  else if c = '\r' then "\\r"
  else if c = '\x1b' then "\\e"
  else if c = '\u0085' then "\\N"
  else if c = '\u2028' then "\\L"
  else if c = '\u2029' then "\\P"
  else if needsEscape c then
    if c.toNat ≤ 0xFF then "\\x" ++ upperHex 2 c.toNat else "\\u" ++ upperHex 4 c.toNat
  else [c]

def doubled (t : Text) : Text := t.flatMap fun c => if c = '\'' then ['\'', '\''] else [c]

/-- A string with the end of its line, where lines of its own start with `margin`. -/
def scalarLine (margin t : Text) : Text :=
  match formOf t with
  | .plain => t ++ "\n"
  | .singleQuoted =>
    "'" ++ indented margin false (doubled t) ++ (if endsInBreak t then margin else []) ++ "'\n"
  | .doubleQuoted => "\"" ++ t.flatMap doubleQuotedChar ++ "\"\n"
  | .literal =>
    "|" ++ blockHints t ++ "\n" ++ indented margin true t ++
      (if endsInBreak t then ([] : Text) else "\n")

end ProjectFile.Yaml
