import ProjectFile.Text.Printable
import ProjectFile.Text.Utf8

/-!
Quoted texts, as messages show paths and characters: the delimiter and the backslash are escaped,
and characters that do not show as themselves are written by name or by code point. Of bytes, those
that are not part of a character are written by their values.
-/

namespace ProjectFile.Text

/-- A character as it stands between two `delimiter`s. -/
def quotedChar (delimiter c : Char) : Text :=
  if c = delimiter || c = '\\' then ['\\', c]
  else if c = '\x00' then "\\0"
  else if c = '\t' then "\\t"
  else if c = '\n' then "\\n"
  else if c = '\r' then "\\r"
  else if isPrintable c then [c]
  else "\\u\x7b" ++ hex c.toNat ++ "\x7d"

def quoted (t : Text) : Text := "\"" ++ t.flatMap (quotedChar '"') ++ "\""

/-- A byte by its two hexadecimal digits, in capitals. -/
def quotedByte (b : UInt8) : Text :=
  "\\x" ++ [b.toNat / 16, b.toNat % 16].map fun n => n.digitChar.toUpper

def Mark.quoted : Mark → Text
  | .character c => quotedChar '"' c
  | .stray bytes => bytes.flatMap quotedByte

/-- A byte by its two hexadecimal digits, in capitals. -/
def quotedBytes (bytes : Bytes) : Text := "\"" ++ (marks bytes).flatMap Mark.quoted ++ "\""

def quotedSingle (c : Char) : Text := "'" ++ quotedChar '\'' c ++ "'"

end ProjectFile.Text
