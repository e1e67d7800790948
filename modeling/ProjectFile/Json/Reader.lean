import ProjectFile.Json.Basic

/-!
Reading JSON. Each reader takes the text from a place on and gives what it read with the text after
it, or nothing if no such thing stands there. Numbers bound how deep values may nest and how many
elements they may have; the length of the text is always enough for both.
-/

namespace ProjectFile.Json

def isSpace (c : Char) : Bool := c == ' ' || c == '\t' || c == '\n' || c == '\r'

def skipSpaces (t : Text) : Text := t.dropWhile isSpace

def after? : Text → Text → Option Text
  | [], t => some t
  | c :: expected, d :: t => if c = d then after? expected t else none
  | _ :: _, [] => none

/-- What one part of a string stands for: a character, or a UTF-16 unit written in hexadecimal. -/
inductive StringPart where
  | character (c : Char)
  | unit (n : Nat)
deriving DecidableEq

def unit? (a b c d : Char) : Option Nat := do
  let a ← Text.hexDigit? a
  let b ← Text.hexDigit? b
  let c ← Text.hexDigit? c
  let d ← Text.hexDigit? d
  some (((a * 16 + b) * 16 + c) * 16 + d)

def escaped? : Char → Option Char
  | '"' => some '"'
  | '\\' => some '\\'
  | '/' => some '/'
  | 'b' => some '\x08'
  | 'f' => some '\x0c'
  | 'n' => some '\n'
  | 'r' => some '\r'
  | 't' => some '\t'
  | _ => none

/-- The parts of a string up to its closing quote. -/
def stringParts : Text → Option (List StringPart × Text)
  | [] => none
  | '"' :: rest => some ([], rest)
  | '\\' :: 'u' :: a :: b :: c :: d :: rest => do
    let n ← unit? a b c d
    let (parts, rest) ← stringParts rest
    some (.unit n :: parts, rest)
  | '\\' :: c :: rest => do
    let x ← escaped? c
    let (parts, rest) ← stringParts rest
    some (.character x :: parts, rest)
  | c :: rest =>
    if c.toNat < 0x20 || c = '\\' then none
    else do
      let (parts, rest) ← stringParts rest
      some (.character c :: parts, rest)

def isHigh (n : Nat) : Bool := 0xD800 ≤ n && n < 0xDC00

def isLow (n : Nat) : Bool := 0xDC00 ≤ n && n < 0xE000

/-- The characters that the parts stand for, if no half of a surrogate pair stands alone. -/
def textOf? : List StringPart → Option Text
  | [] => some []
  | .character c :: rest => (textOf? rest).map (c :: ·)
  | .unit n :: .unit m :: rest =>
    if isHigh n then
      if isLow m then
        (textOf? rest).map (Char.ofNat (0x10000 + (n - 0xD800) * 0x400 + (m - 0xDC00)) :: ·)
      else none
    else if isLow n then none
    else (textOf? (.unit m :: rest)).map (Char.ofNat n :: ·)
  | .unit n :: rest =>
    if isHigh n || isLow n then none else (textOf? rest).map (Char.ofNat n :: ·)

/-- A string after its opening quote. -/
def stringRest (t : Text) : Option (Option Text × Text) :=
  (stringParts t).map fun (parts, rest) => (textOf? parts, rest)

def digits (t : Text) : Option (Text × Text) :=
  let run := t.takeWhile Char.isDigit
  if run.isEmpty then none else some (run, t.dropWhile Char.isDigit)

/-- The digits before the point: no zero comes before another digit. -/
def wholePart (t : Text) : Option (Text × Text) := do
  let (run, rest) ← digits t
  match run with
  | '0' :: _ :: _ => none
  | _ => some (run, rest)

def fraction : Text → Option (Text × Text)
  | '.' :: t => do
    let (run, rest) ← digits t
    some ('.' :: run, rest)
  | t => some ([], t)

def exponent (t : Text) : Option (Text × Text) :=
  match t with
  | e :: rest =>
    if e = 'e' || e = 'E' then
      match rest with
      | s :: more =>
        if s = '+' || s = '-' then (digits more).map fun (run, rest) => (e :: s :: run, rest)
        else (digits rest).map fun (run, rest) => (e :: run, rest)
      | [] => none
    else some ([], t)
  | [] => some ([], [])

def numberText (t : Text) : Option (Text × Text) := do
  let (sign, t) :=
    match t with
    | '-' :: rest => (['-'], rest)
    | t => ([], t)
  let (whole, t) ← wholePart t
  let (part, t) ← fraction t
  let (power, t) ← exponent t
  some (sign ++ whole ++ part ++ power, t)

/-- The elements of an array from one of them to the closing bracket, at most `n`; `value` reads
one element. -/
def elements (value : Text → Option (Json × Text)) : Nat → Text → Option (List Json × Text)
  | 0, _ => none
  | n + 1, t => do
    let (v, t) ← value (skipSpaces t)
    match skipSpaces t with
    | ']' :: rest => some ([v], rest)
    | ',' :: rest => do
      let (vs, rest) ← elements value n rest
      some (v :: vs, rest)
    | _ => none

/-- The members of an object from one of them to the closing brace, at most `n`; `value` reads one
value. -/
def membersFrom (value : Text → Option (Json × Text)) :
    Nat → Text → Option (List (Option Text × Json) × Text)
  | 0, _ => none
  | n + 1, t =>
    match skipSpaces t with
    | '"' :: rest => do
      let (name, t) ← stringRest rest
      match skipSpaces t with
      | ':' :: rest => do
        let (v, t) ← value (skipSpaces rest)
        match skipSpaces t with
        | '\x7d' :: rest => some ([(name, v)], rest)
        | ',' :: rest => do
          let (ms, rest) ← membersFrom value n rest
          some ((name, v) :: ms, rest)
        | _ => none
      | _ => none
    | _ => none

/-- A value that starts right here and nests at most `depth` deep. -/
def value : Nat → Text → Option (Json × Text)
  | 0, _ => none
  | depth + 1, t =>
    match t with
    | [] => none
    | 'n' :: rest => (after? "ull" rest).map fun rest => (.null, rest)
    | 't' :: rest => (after? "rue" rest).map fun rest => (.bool true, rest)
    | 'f' :: rest => (after? "alse" rest).map fun rest => (.bool false, rest)
    | '"' :: rest => (stringRest rest).map fun (s, rest) => (.string s, rest)
    | '[' :: rest =>
      match skipSpaces rest with
      | ']' :: rest => some (.array [], rest)
      | t => (elements (value depth) t.length t).map fun (vs, rest) => (.array vs, rest)
    | '\x7b' :: rest =>
      match skipSpaces rest with
      | '\x7d' :: rest => some (.object [], rest)
      | t => (membersFrom (value depth) t.length t).map fun (ms, rest) => (.object ms, rest)
    | _ => (numberText t).map fun (digits, rest) => (.number digits, rest)

/-- The value that a whole text is, white space around it aside. -/
def parse (t : Text) : Option Json :=
  let t := skipSpaces t
  match value (t.length + 1) t with
  | some (v, rest) => if (skipSpaces rest).isEmpty then some v else none
  | none => none

end ProjectFile.Json
