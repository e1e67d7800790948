import ProjectFile.Evaluation.Basic
import ProjectFile.Json.Reader
import ProjectFile.Settings

/-!
What an engine prints about a project: possibly a banner, then a JSON object with the properties
and the items that were asked for. The object and each item may also be written as arrays of their
parts in order. Anything else in them is passed over, but what is known may not be repeated.
-/

namespace ProjectFile.Evaluation

structure Item where
  identity : Text
  fullPath? : Option Text
deriving DecidableEq

/-- What an engine prints: properties and, for each kind, items. Of several entries for one name
the last counts. -/
structure Output where
  properties : List (Text × Text)
  items : List (Text × List Item)
deriving DecidableEq

def last? {α : Type} (name : Text) (entries : List (Text × α)) : Option α :=
  (entries.reverse.find? fun entry => entry.1 == name).map Prod.snd

namespace Output

def itemsOf (o : Output) (kind : Text) : List Item := (last? kind o.items).getD []

/-- The value of a property, trimmed; empty if there is none. -/
def property (o : Output) (name : Text) : Text := ((last? name o.properties).map Text.trim).getD []

end Output

/-- The entries of an object whose names are known and whose values `decode` understands. -/
def entries? {α : Type} (decode : Json → Option α) : Json → Option (List (Text × α))
  | .object members => members.mapM fun (name?, v) => do some (← name?, ← decode v)
  | _ => none

def string? : Json → Option Text
  | .string value? => value?
  | _ => none

def fullPath? : Json → Option (Option Text)
  | .null => some none
  | .string (some t) => some (some t)
  | _ => none

/-- The single value of a name among the members of an object whose names are all known: `none`
inside if there is none, nothing at all if there are several. -/
def single? (name : Text) (members : List (Option Text × Json)) : Option (Option Json) :=
  if members.any fun m => m.1.isNone then none
  else
    match Json.members name members with
    | [] => some none
    | [v] => some (some v)
    | _ => none

/-- An item, as an object or as an array of its parts. -/
def item? : Json → Option Item
  | .object members => do
    let identity ← (← single? "Identity" members).bind string?
    match ← single? "FullPath" members with
    | none => some ⟨identity, none⟩
    | some v => some ⟨identity, ← fullPath? v⟩
  | .array [identity] => do some ⟨← string? identity, none⟩
  | .array [identity, path] => do some ⟨← string? identity, ← fullPath? path⟩
  | _ => none

def items? : Json → Option (List Item)
  | .array elements => elements.mapM item?
  | _ => none

/-- The properties, absent ones being empty. -/
def properties? : Option Json → Option (List (Text × Text))
  | none => some []
  | some v => entries? string? v

/-- The items of each kind, absent ones being empty. -/
def itemLists? : Option Json → Option (List (Text × List Item))
  | none => some []
  | some v => entries? items? v

/-- An engine's output, as an object or as an array of its parts. -/
def Output.ofJson? : Json → Option Output
  | .object members => do
    let properties ← properties? (← single? "Properties" members)
    let items ← itemLists? (← single? "Items" members)
    some ⟨properties, items⟩
  | .array [] => some ⟨[], []⟩
  | .array [properties] => do some ⟨← properties? (some properties), []⟩
  | .array [properties, items] => do
    some ⟨← properties? (some properties), ← itemLists? (some items)⟩
  | _ => none

/-- The text from the first line on whose first character that is not white space is a brace.
`line` is where the current line starts and `blank` whether only white space has been seen
in it. -/
def objectStart? (line : Text) (blank : Bool) : Text → Option Text
  | [] => none
  | c :: rest =>
    if c = '\n' then objectStart? rest true rest
    else if blank && c = '\x7b' then some line
    else objectStart? line (blank && Text.isBlank c) rest

/-- The text without the lines before an object; all of it if there is no object. -/
def skipBanner (t : Text) : Text := (objectStart? t true t).getD t

/-- Where an item's file is: at its full path if it has one, else at its identity seen from the
project directory. -/
def Item.path (directory : Path) (item : Item) : Path :=
  match item.fullPath? with
  | some (c :: rest) => Path.clean (.ofText (c :: rest))
  | _ => directory.resolveInclude item.identity

/-- The lists of a project in `directory` that an engine's output gives. Several frameworks win
over a single one. -/
def Output.evaluated (o : Output) (directory : Path) (sourceExtension : Text) : Evaluated where
  references := (o.itemsOf "Reference").filterMap fun item => item.identity.nonBlank?
  sources :=
    ((o.itemsOf "Compile").map (Item.path directory)).filter fun p =>
      Text.endsWith p.display sourceExtension
  targetFrameworks :=
    let frameworks := o.property "TargetFrameworks"
    Text.pieces ';' (if frameworks.isEmpty then o.property "TargetFramework" else frameworks)

/-- The lists of a project in `directory` that the text printed by an engine gives. -/
def decode (printed : Text) (directory : Path) (sourceExtension : Text) :
    Except EvaluationError Evaluated :=
  match (Json.parse (skipBanner printed)).bind Output.ofJson? with
  | some output => .ok (output.evaluated directory sourceExtension)
  | none => .error .unreadable

theorem decode_eq_ok_iff {printed sourceExtension : Text} {directory : Path} {e : Evaluated} :
    decode printed directory sourceExtension = .ok e ↔
      ∃ output, (Json.parse (skipBanner printed)).bind Output.ofJson? = some output ∧
        output.evaluated directory sourceExtension = e := by
  unfold decode
  cases (Json.parse (skipBanner printed)).bind Output.ofJson? with
  | none => simp
  | some output => simp

end ProjectFile.Evaluation
