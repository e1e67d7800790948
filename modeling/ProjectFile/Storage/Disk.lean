import ProjectFile.Storage.Basic
import ProjectFile.Text.Utf8

/-!
A disk: directories, files made of bytes, symbolic links and what is none of these, with what the
program may do with them. Paths are followed part by part as the operating system does, through
directories that let the program pass, through links and at most forty of them. Walks list each
directory in the order of its names, report links only if they lead to a file, and enter no link. A
directory further down that cannot be listed is recorded and passed over.
-/

namespace ProjectFile

namespace Disk

/-- The longest name a directory can hold, in bytes. -/
def maxName : Nat := 255

/-- The least length, in bytes, of a path that is too long as a whole. -/
def longPath : Nat := 4096

/-- How many links may be followed for one path. -/
def maxLinks : Nat := 40

/-- Refuses what is not passed as a path. -/
def check (p : Path) : Except SystemError Unit :=
  if p.bytes.isEmpty then .error .notFound
  else if 0 ∈ p.bytes then .error .nulInPath
  else if longPath ≤ p.bytes.length then .error .nameTooLong
  else .ok ()

end Disk

/-- What a walk comes upon: a file, or a directory that cannot be listed. -/
inductive Finding where
  | file (path : Path)
  | unlistable (path : Path) (reason : SystemError)

namespace Finding

def file? : Finding → Option Path
  | .file p => some p
  | .unlistable _ _ => none

def event? : Finding → Option Event
  | .file _ => none
  | .unlistable p reason =>
    some ⟨.warn, "Failed to read directory entry, skipping",
      [("error", .text (p.display ++ ": IO error for operation on " ++ p.display ++ ": " ++
        reason.message))]⟩

end Finding

/-- What the program may do: read a file or list a directory, write a file or change which names a
directory holds, and enter a directory on the way to what is below it. -/
structure Rights where
  read : Bool
  write : Bool
  enter : Bool
deriving DecidableEq

def Rights.all : Rights := ⟨true, true, true⟩

/-- What a name on the disk stands for. What is neither a file nor a link nor a directory is taken
for a socket, which cannot be opened. -/
inductive DiskEntry where
  | file (rights : Rights) (bytes : Bytes)
  | link (target : Path)
  | directory (rights : Rights) (entries : List (Bytes × DiskEntry))
  | special

namespace DiskEntry

def emptyDirectory : DiskEntry := .directory .all []

/-- Whether the entry itself is a directory, links not followed. -/
def isDirectory : DiskEntry → Bool
  | .directory _ _ => true
  | _ => false

/-- The entries of a directory with one name set. -/
def setName (name : Bytes) (e : DiskEntry) : List (Bytes × DiskEntry) → List (Bytes × DiskEntry)
  | [] => [(name, e)]
  | (n, old) :: rest => if n = name then (n, e) :: rest else (n, old) :: setName name e rest

/-- The entry with what is at the given names below it replaced; directories that are missing on
the way there are added, and nothing is put below what is not a directory. -/
def put (e : DiskEntry) (names : List Bytes) (new : DiskEntry) : DiskEntry :=
  match names, e with
  | [], _ => new
  | name :: names, .directory rights entries =>
    let below := ((entries.find? fun e => e.1 == name).map Prod.snd).getD emptyDirectory
    .directory rights (setName name (below.put names new) entries)
  | _, e => e

def erase (e : DiskEntry) (names : List Bytes) : DiskEntry :=
  match names, e with
  | [name], .directory rights entries => .directory rights (entries.filter fun e => e.1 != name)
  | name :: names, .directory rights entries =>
    match (entries.find? fun e => e.1 == name).map Prod.snd with
    | some below => .directory rights (setName name (below.erase names) entries)
    | none => .directory rights entries
  | _, e => e

mutual

/-- What a walk comes upon at and below an entry found at path `p`. `isFile` tells where a link
leads, and `opened` whether the system opens the directory at a path. -/
def walk (isFile : Path → Bool) (opened : Path → Except SystemError DiskEntry)
    (excluded : List Bytes) (p : Path) : DiskEntry → List Finding
  | .file _ _ => [.file p]
  | .link _ => if isFile p then [.file p] else []
  | .directory _ entries =>
    match opened p with
    | .ok _ =>
      ((walkEach isFile opened excluded p entries).mergeSort fun a b =>
        decide (a.1 ≤ b.1)).flatMap Prod.snd
    | .error reason => [.unlistable p reason]
  | .special => []
termination_by structural e => e

/-- What a walk comes upon for each entry of the directory at path `p`, directories with an
excluded name passed over. -/
def walkEach (isFile : Path → Bool) (opened : Path → Except SystemError DiskEntry)
    (excluded : List Bytes) (p : Path) : List (Bytes × DiskEntry) → List (Bytes × List Finding)
  | [] => []
  | (name, e) :: rest =>
    (name, if e.isDirectory && excluded.contains name then []
      else e.walk isFile opened excluded (p.child name)) ::
      walkEach isFile opened excluded p rest
termination_by structural entries => entries

end

end DiskEntry

/-- What a path leads to: an entry, or a name that is still free in a directory. Places are told
by the names that lead there from the root directory. -/
inductive Place where
  | taken (names : List Bytes) (entry : DiskEntry)
  | vacant (names : List Bytes)

/-- What becomes of the last name of a path. -/
inductive Ending where
  /-- A link is followed. -/
  | follow
  /-- A link is followed, and a name with separators after it is taken for that of a directory. -/
  | write
  /-- A link is itself the place. -/
  | keep
deriving DecidableEq

/-- The way that was taken from the root directory: the names on it with what they stand for, the
last one first. -/
abbrev Trail := List (Bytes × DiskEntry)

namespace Trail

/-- The names on the way, the first one first. -/
def names (way : Trail) : List Bytes := (way.map Prod.fst).reverse

/-- Where the way leads from the root directory. -/
def goal (root : DiskEntry) : Trail → DiskEntry
  | [] => root
  | (_, e) :: _ => e

/-- The way that goes on over the given names, if directories hold them one after another. -/
def down? (root : DiskEntry) : Trail → List Bytes → Option Trail
  | way, [] => some way
  | way, name :: names =>
    match way.goal root with
    | .directory _ entries =>
      match (entries.find? fun e => e.1 == name).map Prod.snd with
      | some e => down? root ((name, e) :: way) names
      | none => none
    | _ => none

end Trail

/-- Where following the parts of a path has come to: its end, or a link with what is to be
followed after it. -/
inductive Progress where
  | done (result : Except SystemError Place)
  | link (way : Trail) (target : Path) (rest : List Bytes)

/-- A disk, as its root directory and the plain path of the directory that relative paths are seen
from. -/
structure Disk where
  root : DiskEntry
  base : Path

namespace Disk

/-- Follows the parts of a path from where a way leads, up to the first link. -/
def follow (root : DiskEntry) (ending : Ending) : Trail → List Bytes → Progress
  | way, [] => .done (.ok (.taken way.names (way.goal root)))
  | way, part :: rest =>
    match way.goal root with
    | .directory rights entries =>
      if part.isEmpty then follow root ending way rest
      else if !rights.enter then .done (.error .denied)
      else if part = [Path.dot] then follow root ending way rest
      else if part = [Path.dot, Path.dot] then follow root ending way.tail rest
      else
        let isLast := rest.all List.isEmpty
        if ending = .write && isLast && !rest.isEmpty then .done (.error .isDirectory)
        else if maxName < part.length then .done (.error .nameTooLong)
        else
          match (entries.find? fun e => e.1 == part).map Prod.snd with
          | some (.link target) =>
            if ending = .keep && isLast then
              .done (.ok (.taken (way.names ++ [part]) (.link target)))
            else .link way target rest
          | some e => follow root ending ((part, e) :: way) rest
          | none =>
            if !isLast then .done (.error .notFound)
            else if ending = .follow || rights.write then
              .done (.ok (.vacant (way.names ++ [part])))
            else .done (.error .denied)
    | _ => .done (.error .notDirectory)

def followLinks (root : DiskEntry) (ending : Ending) :
    Nat → Trail → List Bytes → Except SystemError Place
  | n, way, parts =>
    match follow root ending way parts with
    | .done result => result
    | .link way target rest =>
      match n with
      | 0 => .error .tooManyLinks
      | n + 1 =>
        followLinks root ending n (if target.isAbsolute then [] else way)
          (Text.splitOn Path.slash target.bytes ++ rest)

/-- The way to where a path starts: the root directory, or the one that relative paths are seen
from, which the program is in already and does not have to enter. -/
def start (d : Disk) (p : Path) : Except SystemError Trail :=
  if p.isAbsolute then .ok []
  else
    match Trail.down? d.root [] d.base.names with
    | some way => .ok way
    | none => .error .notFound

/-- The directory that relative paths are seen from, as long as it is there. -/
def current (d : Disk) : Except SystemError Path :=
  match Trail.down? d.root [] d.base.names with
  | some _ => .ok d.base
  | none => .error .notFound

/-- The place that a path leads to. -/
def place (d : Disk) (ending : Ending) (p : Path) : Except SystemError Place :=
  match check p with
  | .ok () =>
    match d.start p with
    | .ok way => followLinks d.root ending maxLinks way (Text.splitOn Path.slash p.bytes)
    | .error reason => .error reason
  | .error reason => .error reason

/-- The entry that a path leads to, with the names that lead there. -/
def resolve (d : Disk) (p : Path) : Except SystemError (List Bytes × DiskEntry) :=
  match d.place .follow p with
  | .ok (.taken names e) => .ok (names, e)
  | .ok (.vacant _) => .error .notFound
  | .error reason => .error reason

def isDirectory (d : Disk) (p : Path) : Bool :=
  match d.resolve p with
  | .ok (_, .directory _ _) => true
  | _ => false

def isFile (d : Disk) (p : Path) : Bool :=
  match d.resolve p with
  | .ok (_, .file _ _) => true
  | _ => false

def bytes (d : Disk) (p : Path) : Except SystemError (List UInt8) :=
  match d.resolve p with
  | .ok (_, .file rights bytes) => if rights.read then .ok bytes else .error .denied
  | .ok (_, .directory rights _) => .error (if rights.read then .isDirectory else .denied)
  | .ok _ => .error .noDevice
  | .error reason => .error reason

def read (d : Disk) (p : Path) : Except FileError Text :=
  match d.bytes p with
  | .error reason => .error (.unreadable p reason)
  | .ok bytes =>
    match Text.decode? bytes with
    | some text => .ok text
    | none => .error (.unreadable p .notUtf8)

/-- The directory that the path leads to, opened to be listed. -/
def opened (d : Disk) (p : Path) : Except SystemError DiskEntry :=
  match d.resolve p with
  | .ok (_, .directory rights entries) =>
    if rights.read then .ok (.directory rights entries) else .error .denied
  | .ok _ => .error .notDirectory
  | .error reason => .error reason

def walk (d : Disk) (p : Path) (excluded : List Bytes) : Except FileError (List Finding) :=
  match d.opened p with
  | .ok e => .ok (e.walk d.isFile d.opened excluded p)
  | .error reason => .error (.unlistable p reason)

/-- The files below the directory that the path leads to; the directories that cannot be listed
are recorded. -/
def files (d : Disk) (p : Path) (excluded : List Bytes) : Attempt FileError (List Path) := do
  let found ← Attempt.ofExcept (d.walk p excluded)
  Attempt.recordAll (found.filterMap Finding.event?)
  pure (found.filterMap Finding.file?)

@[simp] theorem result_files (d : Disk) (p : Path) (excluded : List Bytes) :
    (d.files p excluded).result = (d.walk p excluded).map (List.filterMap Finding.file?) := by
  unfold files
  cases d.walk p excluded <;> simp [Except.bind, Except.map]

def storage (d : Disk) : Storage := ⟨d.isDirectory, d.isFile, d.read, d.files⟩

/-- Replaces the content of a file or makes a new one; the directory has to be there. -/
def write (d : Disk) (p : Path) (bytes : Bytes) : Except SystemError Disk :=
  match d.place .write p with
  | .ok (.taken names (.file rights _)) =>
    if rights.write then .ok { d with root := d.root.put names (.file rights bytes) }
    else .error .denied
  | .ok (.taken _ (.directory _ _)) => .error .isDirectory
  | .ok (.taken _ _) => .error .noDevice
  | .ok (.vacant names) => .ok { d with root := d.root.put names (.file .all bytes) }
  | .error reason => .error reason

/-- Makes the entry unless something is there, be it a link that leads nowhere; the directory above
it has to be there. -/
def make (d : Disk) (p : Path) (e : DiskEntry) : Disk :=
  match d.place .keep p with
  | .ok (.vacant names) => { d with root := d.root.put names e }
  | _ => d

/-- Makes the directory and those above it that are missing, or none if the path as a whole is
refused. -/
def makeDirectories (d : Disk) (p : Path) : Disk :=
  let p := d.base.join p
  if (check p).toBool then p.prefixes.foldl (fun d q => d.make q .emptyDirectory) d else d

def makeAbove (d : Disk) (p : Path) : Disk :=
  match p.parent? with
  | some above => d.makeDirectories above
  | none => d

def addFile (d : Disk) (p : Path) (bytes : Bytes) : Disk :=
  let d := d.makeAbove p
  (d.write p bytes).toOption.getD d

/-- Lays a link down, with the directories above it. A link leads somewhere, and no separators
follow its name. -/
def addLink (d : Disk) (p target : Path) : Disk :=
  let d := d.makeAbove p
  if Text.endsWith p.bytes [Path.slash] || !(check target).toBool then d
  else d.make p (.link target)

def remove (d : Disk) (p : Path) : Disk :=
  match d.place .keep p with
  | .ok (.taken names _) => { d with root := d.root.erase names }
  | _ => d

end Disk

end ProjectFile
