/-!
# Files

Why a file cannot be read, and reading from a directory that is given as a
list of files. A path is walked component by component: empty ones and single
dots stay where they are, and only a directory can be walked through.
-/

namespace Wasm.CommandLine

inductive FileError where
  | notFound
  | permissionDenied
  | notDirectory
  | isDirectory
  | nameTooLong
  | other (text : String)
deriving DecidableEq

namespace FileError

/-- The error a system reports by a number. -/
def ofCode? : Nat → Option FileError
  | 2 => some notFound
  | 13 => some permissionDenied
  | 20 => some notDirectory
  | 21 => some isDirectory
  | 36 => some nameTooLong
  | _ => none

def message : FileError → String
  | notFound => "No such file or directory (os error 2)"
  | permissionDenied => "Permission denied (os error 13)"
  | notDirectory => "Not a directory (os error 20)"
  | isDirectory => "Is a directory (os error 21)"
  | nameTooLong => "File name too long (os error 36)"
  | other text => text

end FileError

/-- Files by name. -/
structure Directory where
  files : List (String × List UInt8)

namespace Directory

/-- Where a walk has come to. Of the directories outside only that they exist
    is known. -/
inductive Place where
  | home
  | outside
  | file (bytes : List UInt8)

/-- The longest component and the longest path, in bytes. -/
def maxName : Nat := 255

def maxPath : Nat := 4095

/-- Looks a name up. -/
def lookup (d : Directory) (place : Place) (name : String) : Except FileError Place :=
  if maxName < name.utf8ByteSize then .error .nameTooLong
  else
    match place, d.files.lookup name with
    | .home, some bytes => .ok (.file bytes)
    | _, _ => .error .notFound

/-- Follows one component of a path. -/
def follow (d : Directory) (place : Place) (component : String) : Except FileError Place :=
  match place, component with
  | .file _, _ => .error .notDirectory
  | place, "" => .ok place
  | place, "." => .ok place
  | _, ".." => .ok .outside
  | place, name => d.lookup place name

def read (d : Directory) (path : String) : Except FileError (List UInt8) :=
  if path.isEmpty then .error .notFound
  else if maxPath < path.utf8ByteSize then .error .nameTooLong
  else
    let start := if path.startsWith "/" then Place.outside else .home
    match (path.splitOn "/").foldlM d.follow start with
    | .ok (.file bytes) => .ok bytes
    | .ok _ => .error .isDirectory
    | .error e => .error e

end Directory

end Wasm.CommandLine
