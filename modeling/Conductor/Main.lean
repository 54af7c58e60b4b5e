import Conductor.Command

namespace Conductor.Shell

-- A failure of the file system in its own words.
def reason : IO.Error → String
  | .noFileOrDirectory _ code details => s!"{details} (os error {code})"
  | .permissionDenied _ code details => s!"{details} (os error {code})"
  | .inappropriateType _ code details => s!"{details} (os error {code})"
  | error => toString error

def readFile (file : String) : IO (Except FileFault Bytes) := do
  match ← (IO.FS.Handle.mk file .read).toBaseIO with
  | .error error => return .error (.closed (reason error))
  | .ok handle =>
    match ← handle.readBinToEnd.toBaseIO with
    | .error error => return .error (.unreadable (reason error))
    | .ok contents => return .ok contents.data.toList

def createFile (file : String) : IO (Except String Unit) := do
  match ← (IO.FS.Handle.mk file .write).toBaseIO with
  | .error error => return .error (reason error)
  | .ok _ => return .ok ()

-- What the file system says about the one file that a command names.
def filesFor : Command → IO Files
  | .dump file => do
    let contents ← readFile file
    return { read := fun _ => contents, create := fun _ => .error PathError.missing.message }
  | .sample file => do
    let created ← createFile file
    return {
      read := fun _ => .error (.closed PathError.missing.message)
      create := fun _ => created }

def run (args : List String) : IO UInt32 := do
  match Command.parse? args with
  | none =>
    IO.eprintln "usage: bsm dump FILE | bsm sample FILE"
    return 2
  | some command =>
    let outcome := command.run (← filesFor command)
    for line in outcome.output do
      IO.println line
    for line in outcome.errors do
      IO.eprintln line
    if let some (file, bytes) := outcome.written then
      IO.FS.writeBinFile file ⟨bytes.toArray⟩
    return UInt32.ofNat outcome.status

end Conductor.Shell

def main (args : List String) : IO UInt32 := Conductor.Shell.run args
