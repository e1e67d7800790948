import ProjectFile.Text.Utf8

/-!
Paths with `/` as the separator. A path keeps the bytes it was written as, which need not be those
of a text; what it means is its sequence of components, in which empty parts and every `.` but a
leading one have dropped out.
-/

namespace ProjectFile

/-- A path, as written. -/
structure Path where
  bytes : Bytes
deriving DecidableEq

namespace Path

def ofText (t : Text) : Path := ⟨t.encode⟩

/-- The text that the path is written as, if it is one. -/
def text? (p : Path) : Option Text := Text.decode? p.bytes

/-- The path as people are shown it, with a replacement for what is not text. -/
def display (p : Path) : Text := Text.decodeLossy p.bytes

/-- What separates the parts of a path. -/
abbrev slash : UInt8 := 0x2F

abbrev dot : UInt8 := 0x2E

inductive Component where
  | root
  | current
  | parent
  | name (bytes : Bytes)
deriving DecidableEq

/-- The part of a path that stands for the component. -/
def Component.bytes : Component → Bytes
  | .root => [slash]
  | .current => [dot]
  | .parent => [dot, dot]
  | .name bytes => bytes

/-- The component that a part after a separator stands for; an empty part and `.` stand for
none. -/
def Component.ofPart? : Bytes → Option Component
  | [] => none
  | [0x2E] => none
  | [0x2E, 0x2E] => some .parent
  | part => some (.name part)

def empty : Path := ⟨[]⟩

def root : Path := ⟨[slash]⟩

def components (p : Path) : List Component :=
  match Text.splitOn slash p.bytes with
  | [[]] => []
  | [] :: parts => .root :: parts.filterMap Component.ofPart?
  | [0x2E] :: parts => .current :: parts.filterMap Component.ofPart?
  | parts => parts.filterMap Component.ofPart?

def isAbsolute (p : Path) : Bool :=
  match p.bytes with
  | 0x2F :: _ => true
  | _ => false

/-- The second path seen from the first: an absolute path stays, any other is written after the
first with a separator between them where one is needed. -/
def join (p q : Path) : Path :=
  if q.isAbsolute || p.bytes.isEmpty then q
  else if Text.endsWith p.bytes [slash] then ⟨p.bytes ++ q.bytes⟩
  else ⟨p.bytes ++ slash :: q.bytes⟩

def child (p : Path) (name : Bytes) : Path := p.join ⟨name⟩

/-- The plain path of a sequence of components: their parts with a separator between each two,
which the root is already. -/
def ofComponents : List Component → Path
  | .root :: cs => ⟨slash :: Text.join [slash] (cs.map Component.bytes)⟩
  | cs => ⟨Text.join [slash] (cs.map Component.bytes)⟩

/-- The plain paths of the first components of a path, up to all of them. -/
def prefixes (p : Path) : List Path :=
  let cs := p.components
  (List.range cs.length).map fun n => ofComponents (cs.take (n + 1))

/-- Whether a part after a separator stands for no component. -/
def isSilent (part : Bytes) : Bool := (Component.ofPart? part).isNone

/-- The path without its last component, spelled as in `p`; the root and the empty path have
none. -/
def parent? (p : Path) : Option Path :=
  match Text.splitOn slash p.bytes with
  | [] => none
  | first :: parts =>
    match parts.reverse.dropWhile isSilent with
    | [] => if first.isEmpty then none else some empty
    | _ :: above =>
      match first, (above.dropWhile isSilent).reverse with
      | [], [] => some root
      | first, parts => some ⟨Text.join [slash] (first :: parts)⟩

/-- The names on a path, whatever else is on it left out. -/
def names (p : Path) : List Bytes :=
  p.components.filterMap fun
    | .name bytes => some bytes
    | _ => none

def fileName? (p : Path) : Option Bytes :=
  match p.components.getLast? with
  | some (.name bytes) => some bytes
  | _ => none

/-- A key for the order of components: the root, `.`, `..` and then the names by their bytes. -/
def Component.key : Component → Bytes
  | .root => [0]
  | .current => [1]
  | .parent => [2]
  | .name bytes => 3 :: bytes

instance : LT Component := ⟨fun c d => c.key < d.key⟩

instance (c d : Component) : Decidable (c < d) := inferInstanceAs (Decidable (c.key < d.key))

theorem Component.key_injective {c d : Component} (h : c.key = d.key) : c = d := by
  cases c <;> cases d <;> simp_all [Component.key]

instance : Std.Irrefl fun c d : Component => c < d := ⟨fun c => List.lt_irrefl c.key⟩

instance : Trans (fun c d : Component => c < d) (fun c d => c < d) fun c d => c < d :=
  ⟨fun h g => List.lt_trans (α := UInt8) h g⟩

instance : Std.Trichotomous fun c d : Component => c < d :=
  ⟨fun _ _ h g => Component.key_injective (List.le_antisymm (α := UInt8) g h)⟩

/-- Paths are ordered by their components, one after another. -/
instance : LT Path := ⟨fun p q => p.components < q.components⟩

instance (p q : Path) : Decidable (p < q) :=
  inferInstanceAs (Decidable (p.components < q.components))

instance : LE Path := ⟨fun p q => ¬ q < p⟩

instance (p q : Path) : Decidable (p ≤ q) := inferInstanceAs (Decidable (¬ q < p))

protected theorem lt_irrefl (p : Path) : ¬ p < p := List.lt_irrefl p.components

protected theorem lt_trans {p q r : Path} (h : p < q) (g : q < r) : p < r :=
  List.lt_trans (α := Component) h g

theorem lt_congr {p q p' q' : Path} (h : p.components = p'.components)
    (g : q.components = q'.components) : p < q ↔ p' < q' := by
  change p.components < q.components ↔ p'.components < q'.components
  rw [h, g]

end Path

end ProjectFile
