import ProjectFile.Json.Basic

/-!
Writing JSON over several lines: each element or member on a line of its own, two spaces further in
than the bracket it stands in. A string escapes what has to be escaped and nothing else.
-/

namespace ProjectFile.Json

def fourDigits (n : Nat) : Text :=
  let digits := Text.hex n
  List.replicate (4 - digits.length) '0' ++ digits

def writtenChar (c : Char) : Text :=
  if c = '"' then "\\\""
  else if c = '\\' then "\\\\"
  else if c = '\x08' then "\\b"
  else if c = '\t' then "\\t"
  else if c = '\n' then "\\n"
  else if c = '\x0c' then "\\f"
  else if c = '\r' then "\\r"
  else if c.toNat < 0x20 then "\\u" ++ fourDigits c.toNat
  else [c]

/-- A string; an unknown one is written as half a surrogate pair. -/
def writtenString : Option Text → Text
  | some t => "\"" ++ t.flatMap writtenChar ++ "\""
  | none => "\"\\ud800\""

/-- The white space in front of a line at the given depth. -/
def margin (depth : Nat) : Text := List.replicate (2 * depth) ' '

/-- Lines at a depth between an opening and a closing bracket, with commas between them. -/
def bracketed (depth : Nat) (opening closing : Text) (lines : List Text) : Text :=
  if lines.isEmpty then opening ++ closing
  else
    opening ++ "\n" ++ Text.join ",\n" (lines.map (margin (depth + 1) ++ ·)) ++ "\n" ++
      margin depth ++ closing

mutual

/-- A value whose brackets stand at the given depth. -/
def written (depth : Nat) : Json → Text
  | .null => "null"
  | .bool true => "true"
  | .bool false => "false"
  | .number digits => digits
  | .string value? => writtenString value?
  | .array elements => bracketed depth "[" "]" (writtenElements (depth + 1) elements)
  | .object members => bracketed depth "\x7b" "\x7d" (writtenMembers (depth + 1) members)
termination_by structural v => v

def writtenElements (depth : Nat) : List Json → List Text
  | [] => []
  | v :: rest => written depth v :: writtenElements depth rest
termination_by structural vs => vs

def writtenMembers (depth : Nat) : List (Option Text × Json) → List Text
  | [] => []
  | (name?, v) :: rest =>
    (writtenString name? ++ ": " ++ written depth v) :: writtenMembers depth rest
termination_by structural ms => ms

end

/-- The value as a text of its own, without a line end. -/
def write (v : Json) : Text := written 0 v

/-- The value on one line: strings escape their line ends, so those left out stand between parts. -/
def writeLine (v : Json) : Text := (write v).filter (· != '\n')

end ProjectFile.Json
