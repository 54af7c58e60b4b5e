import Conductor.Bytes

namespace Conductor

-- Why a file gives no bytes: it cannot be opened, or it can and reading it fails.
inductive FileFault where
  | closed (reason : String)
  | unreadable (reason : String)
deriving DecidableEq

-- The files that a command may read or create, each with the reason if it may not.
structure Files where
  read : String → Except FileFault Bytes
  create : String → Except String Unit

-- Why a path leads to no file.
inductive PathError where
  | missing
  | notADirectory
  | isADirectory
  | nameTooLong
deriving DecidableEq

def PathError.message : PathError → String
  | missing => "No such file or directory (os error 2)"
  | notADirectory => "Not a directory (os error 20)"
  | isADirectory => "Is a directory (os error 21)"
  | nameTooLong => "File name too long (os error 36)"

-- Where a path leads: to a directory, to a file, or to a name that nothing has.
inductive Place where
  | directory (inside : Bool)
  | file (name : String)
  | free (inside : Bool) (name : String)
deriving DecidableEq

-- A directory that holds files and no other directories. What lies outside has no files.
structure Directory where
  entries : List (String × Bytes)

namespace Directory

-- The most bytes of a name and of a path.
def nameLimit : Nat := 255

def pathLimit : Nat := 4095

-- A dot stays, two dots lead outside, and a name is looked up. Only a directory leads further.
def step (d : Directory) (place : Place) (part : String) : Except PathError Place :=
  match place with
  | .file _ => .error .notADirectory
  | .free _ _ => .error .missing
  | .directory inside =>
    if part = "." then .ok place
    else if part = ".." then .ok (.directory false)
    else if nameLimit < part.utf8ByteSize then .error .nameTooLong
    else if inside ∧ (d.entries.lookup part).isSome then .ok (.file part)
    else .ok (.free inside part)

-- What stands between the slashes of a path.
def parts (path : String) : List String := (path.splitOn "/").filter fun part => part ≠ ""

-- A path that ends in a slash means a directory.
def meansDirectory (path : String) : Bool := path.endsWith "/"

-- Where some parts of a path lead, one after the other.
def follow (d : Directory) (path : String) (parts : List String) : Except PathError Place :=
  if path = "" then .error .missing
  else if pathLimit < path.utf8ByteSize then .error .nameTooLong
  else parts.foldlM d.step (.directory (!path.startsWith "/"))

def locate (d : Directory) (path : String) : Except PathError Place :=
  d.follow path (if meansDirectory path then parts path ++ ["."] else parts path)

-- The name of the directory's file that a path leads to or would make.
def name? (d : Directory) (path : String) : Option String :=
  match d.locate path with
  | .ok (.file name) | .ok (.free true name) => some name
  | _ => none

def read (d : Directory) (path : String) : Except FileFault Bytes :=
  match d.locate path with
  | .error error => .error (.closed error.message)
  | .ok (.directory _) => .error (.unreadable PathError.isADirectory.message)
  | .ok (.free _ _) => .error (.closed PathError.missing.message)
  | .ok (.file name) =>
    match d.entries.lookup name with
    | some bytes => .ok bytes
    | none => .error (.closed PathError.missing.message)

-- A file can be made under any name in a directory. The last part before a slash at the end is not
-- looked at, for it could only be a directory.
def create (d : Directory) (path : String) : Except PathError Unit := do
  let parts := if meansDirectory path then (parts path).dropLast ++ ["."] else parts path
  match ← d.follow path parts with
  | .directory _ => .error .isADirectory
  | .file _ | .free _ _ => .ok ()

def files (d : Directory) : Files where
  read := d.read
  create path := (d.create path).mapError PathError.message

example : [".", "a"].foldlM (Directory.mk [("a", [])]).step (.directory true) = .ok (.file "a") :=
  rfl
example : ["a", "."].foldlM (Directory.mk [("a", [])]).step (.directory true) =
    .error .notADirectory := rfl

end Directory

end Conductor
