import ProjectFile.Text.Basic

/-!
Texts that YAML takes for something other than a string: nothing at all, the null and truth words,
and numbers. Integers may be written in four bases and have to fit 128 bits; other numbers have to
be finite when rounded to 64 bits.
-/

namespace ProjectFile.Yaml

def nullWords : List Text := ["null", "Null", "NULL", "~"]

def truthWords : List Text := ["true", "True", "TRUE", "false", "False", "FALSE"]

/-- The words for what is no finite number; the first three may have a sign. -/
def infinityWords : List Text := [".inf", ".Inf", ".INF"]

def nanWords : List Text := [".nan", ".NaN", ".NAN"]

/-- The text without a sign in front of it. -/
def unsigned : Text → Text
  | '+' :: rest => rest
  | '-' :: rest => rest
  | t => t

/-- The number that digits of a base stand for; there has to be one. -/
def digits? (base : Nat) : Text → Option Nat
  | [] => none
  | digits => digits.foldlM (fun n c => (Text.hexDigit? c).bind fun d =>
      if d < base then some (n * base + d) else none) 0

/-- Whether the text is a zero followed by more digits, which makes it a string. -/
def isZeroPadded (t : Text) : Bool :=
  match unsigned t with
  | '0' :: c :: rest => (c :: rest).all Char.isDigit
  | _ => false

/-- The magnitude of an integer without its sign, in the base that its beginning tells. -/
def magnitude? : Text → Option Nat
  | '0' :: 'x' :: rest => digits? 16 rest
  | '0' :: 'o' :: rest => digits? 8 rest
  | '0' :: 'b' :: rest => digits? 2 rest
  | t => if isZeroPadded t then none else digits? 10 t

/-- Whether the text is an integer of 128 bits, signed or not. -/
def isInteger (t : Text) : Bool :=
  match t with
  | '-' :: rest => (magnitude? rest).any (· ≤ Nat.pow 2 127)
  | t => (magnitude? (unsigned t)).any (· < Nat.pow 2 128)

/-- A decimal number: its digits without the point, and the power of ten they count. -/
structure Decimal where
  digits : Text
  power : Int

/-- The power of ten that an exponent adds; the empty text adds none. -/
def exponent? : Text → Option Int
  | [] => some 0
  | e :: rest =>
    if e = 'e' || e = 'E' then
      match rest with
      | '-' :: more => (digits? 10 more).map fun n => -(n : Int)
      | '+' :: more => (digits? 10 more).map Int.ofNat
      | more => (digits? 10 more).map Int.ofNat
    else none

/-- A number without its sign: digits with at most one point among or around them, and possibly an
exponent. -/
def Decimal.ofText? (t : Text) : Option Decimal :=
  let whole := t.takeWhile Char.isDigit
  let (part, rest) :=
    match t.dropWhile Char.isDigit with
    | '.' :: more => (more.takeWhile Char.isDigit, more.dropWhile Char.isDigit)
    | more => ([], more)
  if (whole ++ part).isEmpty then none
  else (exponent? rest).map fun power => ⟨whole ++ part, power - part.length⟩

/-- The least value that is rounded to infinity: half a unit above the largest of 64 bits. -/
def overflow : Nat := Nat.pow 2 1024 - Nat.pow 2 970

/-- Whether the number stays finite when rounded to 64 bits. Numbers far from the limit are told
by their length. -/
def Decimal.isFinite (d : Decimal) : Bool :=
  let significant := d.digits.dropWhile (· == '0')
  let length : Int := significant.length + d.power
  if significant.isEmpty || length < 300 then true
  else if 320 < length then false
  else
    let n := (digits? 10 significant).getD 0
    match d.power with
    | .ofNat power => n * Nat.pow 10 power < overflow
    | .negSucc power => n < overflow * Nat.pow 10 (power + 1)

def isFloat (t : Text) : Bool :=
  if isZeroPadded t then false
  else
    infinityWords.contains (unsigned t) || nanWords.contains t ||
      (Decimal.ofText? (unsigned t)).any Decimal.isFinite

/-- Whether YAML takes the plain text for something other than a string. -/
def isSpecial (t : Text) : Bool :=
  t.isEmpty || nullWords.contains t || truthWords.contains t || isInteger t || isFloat t ||
    isZeroPadded t

end ProjectFile.Yaml
