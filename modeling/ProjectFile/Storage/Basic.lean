import ProjectFile.Log.Basic
import ProjectFile.Path.Clean
import ProjectFile.Text.Quoted

/-!
What readers need from a place that stores files: the kind of a path, the text of a file and the
files below a directory. Failures are told by their cause; those that the system reports carry its
reason along.
-/

namespace ProjectFile

def Path.quoted (p : Path) : Text := Text.quotedBytes p.bytes

inductive SystemError where
  | notFound
  | noDevice
  | denied
  | notDirectory
  | isDirectory
  | nameTooLong
  | tooManyLinks
  | notUtf8
  | nulInPath
  | nulInCommand
deriving DecidableEq

def SystemError.message : SystemError → Text
  | .notFound => "No such file or directory (os error 2)"
  | .noDevice => "No such device or address (os error 6)"
  | .denied => "Permission denied (os error 13)"
  | .notDirectory => "Not a directory (os error 20)"
  | .isDirectory => "Is a directory (os error 21)"
  | .nameTooLong => "File name too long (os error 36)"
  | .tooManyLinks => "Too many levels of symbolic links (os error 40)"
  | .notUtf8 => "stream did not contain valid UTF-8"
  | .nulInPath => "file name contained an unexpected NUL byte"
  | .nulInCommand => "nul byte found in provided data"

inductive FileError where
  | fileMissing (path : Path)
  | notFile (path : Path)
  | directoryMissing (path : Path)
  | notDirectory (path : Path)
  | projectMissing (path : Path)
  | noBase (reason : SystemError)
  | unreadable (path : Path) (reason : SystemError)
  | unlistable (path : Path) (reason : SystemError)
deriving DecidableEq

namespace FileError

def message : FileError → Text
  | .fileMissing p => "File not found: " ++ p.quoted
  | .notFile p => "Not a file: " ++ p.quoted
  | .directoryMissing p => "Directory not found: " ++ p.quoted
  | .notDirectory p => "Not a directory: " ++ p.quoted
  | .projectMissing p => "Project file not found: " ++ p.quoted
  | .noBase reason => reason.message
  | .unreadable p _ => "Failed to read file " ++ p.quoted
  | .unlistable p _ => "Failed to read directory " ++ p.quoted

def reason? : FileError → Option SystemError
  | .unreadable _ reason => some reason
  | .unlistable _ reason => some reason
  | _ => none

def explain (e : FileError) : Text :=
  match e.reason? with
  | none => e.message
  | some reason => e.message ++ ": " ++ reason.message

end FileError

/-- A place that stores files. Only a regular file, possibly behind links, is a file. `files`
lists the files below a directory; it enters neither linked directories nor those with a name
from the list, and records which directories it has to pass over. -/
structure Storage where
  isDirectory : Path → Bool
  isFile : Path → Bool
  read : Path → Except FileError Text
  files : Path → List Bytes → Attempt FileError (List Path)

end ProjectFile
