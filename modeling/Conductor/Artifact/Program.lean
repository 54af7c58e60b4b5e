import Conductor.Artifact.Serializer

namespace Conductor

-- The literals and initial values are values of a store or archived trees.
structure Program (α : Type) where
  functions : SymbolTable := .empty
  tasks : List (TaskRecord α) := []
  literals : List α := []
  code : List Placed := []

namespace Program

-- Instructions one behind the other from an offset on.
def place (offset : Nat) : List Instruction → List Placed
  | [] => []
  | instruction :: rest => (offset, instruction) :: place (offset + instruction.length) rest

-- Writes every section of a program in a session.
def writeTo (s : Store) (p : Program Value) : Serializer.Step Unit := do
  let _ ← Serializer.writeMetadata p.functions
  Serializer.writeHeader s p.tasks
  Serializer.writeLiterals s p.literals
  Serializer.writeCode (p.code.map Prod.snd)

-- The artifact of a program.
def write (s : Store) (p : Program Value) : Except EncodeError Bytes :=
  match (writeTo s p).run { sink := { bytes := #[] } } with
  | (.ok (), session) => session.finish
  | (.error error, _) => .error error

abbrev Reader := StateT Bytes (Except DecodeError)

-- A number that stands between the archives.
def number (width : Nat) : Reader Nat := fun bytes =>
  match Archive.Reader.number width bytes with
  | .ok result => .ok result
  | .error _ => .error .endOfInput

def archived {α : Type} (read : Archive.Reader α) : Reader α := fun bytes =>
  match read bytes with
  | .ok result => .ok result
  | .error fault => .error (.archive fault)

def instructions : Reader (List Placed) := fun bytes =>
  match Decoder.instructions bytes with
  | .ok placed => .ok (placed, [])
  | .error fault => .error (.code fault)

-- Reads a program from the rest of a stream whose first `start` bytes are gone and that is `size`
-- bytes long in all.
def reader (size : Nat) : Reader (Program Archived) := do
  let expected ← number 4
  let functions ← archived SymbolTable.read
  let actual := size - (← get).length
  if actual ≠ expected then throw (.metadataOffset expected actual)
  let tasks ← archived (Archive.Reader.times (TaskRecord.read Archived.decode) (← number 2))
  let literals ← archived (Archive.Reader.times Archived.decode (← number 2))
  return { functions, tasks, literals, code := (← instructions) }

-- Reads a program that begins at a position of the stream.
def read (bytes : Bytes) (position : Nat) : Except DecodeError (Program Archived) := do
  let (program, _) ← reader bytes.length (bytes.drop position)
  return program

-- Builds the containers of a program that was read.
def thaw (s : Store) (p : Program Archived) : Program Value × Store :=
  let (tasks, s) := s.traverse TaskRecord.thaw p.tasks
  let (literals, s) := s.traverse Archived.thaw p.literals
  ({ p with tasks, literals }, s)

end Program

end Conductor
