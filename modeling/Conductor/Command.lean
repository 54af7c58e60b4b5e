import Conductor.Demo
import Conductor.Files
import Conductor.Listing

namespace Conductor

inductive Command where
  | dump (file : String)
  | sample (file : String)
deriving DecidableEq

-- What a command prints, how it exits and which file it leaves.
structure Outcome where
  status : Nat := 0
  output : List String := []
  errors : List String := []
  written : Option (String × Bytes) := none

namespace Command

-- The file that a command is given. Two dashes may stand before or after it, and before it they
-- let it begin with a dash.
def file? : List String → Option String
  | ["--", file] => some file
  | [file] | [file, "--"] => if file.startsWith "-" ∧ file ≠ "-" then none else some file
  | _ => none

def parse? : List String → Option Command
  | "dump" :: rest => (file? rest).map dump
  | "sample" :: rest => (file? rest).map sample
  | _ => none

def failure (message : String) : Outcome := { status := 1, errors := [message] }

def run (files : Files) : Command → Outcome
  | dump file =>
    match files.read file with
    | .error (.closed reason) => failure s!"Error opening '{file}': {reason}"
    | .error (.unreadable reason) => failure s!"Error reading {file}: I/O error: {reason}"
    | .ok bytes =>
      match Program.read bytes 0 with
      | .error error => failure s!"Error reading {file}: {error.message}"
      | .ok stored =>
        let (program, s) := Program.thaw .empty stored
        { output := Listing.lines s file program }
  | sample file =>
    match Demo.artifact with
    | .error error => failure s!"Error writing {file}: {error.message}"
    | .ok bytes =>
      match files.create file with
      | .error reason => failure s!"Error writing {file}: I/O error: {reason}"
      | .ok () => { written := some (file, bytes) }

end Command

end Conductor
