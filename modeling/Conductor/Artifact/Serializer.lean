import Conductor.Artifact.LiteralMap
import Conductor.Artifact.Sink
import Conductor.Artifact.SymbolTable
import Conductor.Task

namespace Conductor

-- A section out of order is refused without a trace. Any other failure poisons the session.
structure Serializer where
  sink : Sink
  phase : Phase := .metadata
  poisoned : Bool := false

namespace Serializer

-- A step of a session. What it did to the session stays when it fails.
abbrev Step := ExceptT EncodeError (StateM Serializer)

def put (bytes : Bytes) : Step Unit := do
  let session ← get
  let (complete, sink) := session.sink.write bytes
  set { session with sink }
  unless complete do throw .full

def emit (emission : Archive.Emission) : Step Unit := do
  let session ← get
  let (complete, sink) := session.sink.write emission.bytes
  set { session with sink }
  unless complete do throw (.archive .full)
  match emission.fault with
  | some error => throw (.archive (.freeze error))
  | none => return

def enter (phase : Phase) : Step Unit := modify fun session => { session with phase }

-- Does the work of a section if it is its turn.
def guarded {α : Type} (phase : Phase) (work : Step α) : Step α := do
  let session ← get
  if session.poisoned then throw .poisoned
  else if session.phase ≠ phase then throw (.outOfOrder phase session.phase)
  else
    try work
    catch error => do
      modify fun session => { session with poisoned := true }
      throw error

def putCount (what : Counted) (count : Nat) : Step Unit := do
  if what.limit < count then throw (.tooMany what count)
  put (leBytes 2 count)

-- Writes the symbol table behind a word that holds the position of its end.
def writeMetadata (table : SymbolTable) : Step UInt32 :=
  guarded .metadata do
    let functions ← liftExcept table.indexed
    let start := (← get).sink.position
    put (leBytes 4 0)
    emit (SymbolTable.emission functions)
    let finish := (← get).sink.position
    if Counted.metadataBytes.limit < finish then throw (.tooMany .metadataBytes finish)
    modify fun session =>
      { session with sink := session.sink.overwrite start (leBytes 4 finish) }
    enter .header
    return UInt32.ofNat finish
where
  liftExcept {α : Type} (result : Except EncodeError α) : Step α :=
    match result with
    | .ok value => return value
    | .error error => throw error

def writeHeader (s : Store) (tasks : List (TaskRecord Value)) : Step Unit :=
  guarded .header do
    putCount .tasks tasks.length
    emit (.concat (tasks.map (TaskRecord.emission s.emission)))
    enter .literals

-- Writes literals in the order of their indices. Void has no form in an artifact.
def writeLiterals (s : Store) (literals : List Value) : Step Unit :=
  guarded .literals do
    match literals.findIdx? Value.isVoid with
    | some index => throw (.unrepresentable index .void)
    | none =>
      putCount .literals literals.length
      emit (.concat (literals.map s.emission))
      enter .code

-- Writes the literals of a map. A gap in its indices poisons the session in any state.
def writeLiteralMap (s : Store) (m : LiteralMap) : Step Unit :=
  match m.ordered with
  | .ok literals => writeLiterals s literals
  | .error error => do
    modify fun session => { session with poisoned := true }
    throw error

def writeInstruction (instruction : Instruction) : Step Unit :=
  guarded .code (put instruction.encode)

def writeCode : List Instruction → Step Unit
  | [] => return
  | instruction :: rest => do
    writeInstruction instruction
    writeCode rest

-- The bytes up to the end of a finished artifact. A program without code is one too.
def finish (session : Serializer) : Except EncodeError Bytes :=
  if session.poisoned then .error .poisoned
  else if session.phase ≠ .code then .error (.outOfOrder .code session.phase)
  else .ok session.sink.bytes.toList

end Serializer

end Conductor
