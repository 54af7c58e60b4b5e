import Conductor.Instruction.Opcode

namespace Conductor

namespace Instruction

-- Operands that are as many as the layout asks, each of its type.
def Fits : List OperandType → List Int → Prop
  | [], [] => True
  | type :: types, n :: rest => type.Fits n ∧ Fits types rest
  | _, _ => False

def decideFits :
    (types : List OperandType) → (operands : List Int) → Decidable (Fits types operands)
  | [], [] => isTrue trivial
  | type :: types, n :: rest =>
    haveI := decideFits types rest
    inferInstanceAs (Decidable (type.Fits n ∧ Fits types rest))
  | [], _ :: _ => isFalse id
  | _ :: _, [] => isFalse id

instance (types : List OperandType) (operands : List Int) : Decidable (Fits types operands) :=
  decideFits types operands

def encodeOperands : List OperandType → List Int → Bytes
  | type :: types, n :: rest => type.encode n ++ encodeOperands types rest
  | _, _ => []

-- The operands of a layout from the front of the bytes, and the rest.
def decodeOperands? : (types : List OperandType) → Bytes →
    Option ({ operands : List Int // Fits types operands } × Bytes)
  | [], bytes => some (⟨[], trivial⟩, bytes)
  | type :: types, bytes => do
    let (n, rest) ← type.decode? bytes
    let (operands, rest) ← decodeOperands? types rest
    return (⟨n :: operands.val, ⟨n.property, operands.property⟩⟩, rest)

theorem fits_zeros (types : List OperandType) : Fits types (types.map fun _ => 0) := by
  induction types with
  | nil => trivial
  | cons type types ih => exact ⟨type.fits_zero, ih⟩

end Instruction

structure Instruction where
  opcode : Opcode
  operands : List Int
  fits : Instruction.Fits opcode.layout operands
deriving DecidableEq

-- The signals a task can raise, carried by `EMIT`.
inductive Signal where
  | start
  | stop
deriving DecidableEq

namespace Signal

def ofByte? : UInt8 → Option Signal
  | 0 => some start
  | 1 => some stop
  | _ => none

def byte : Signal → UInt8
  | start => 0
  | stop => 1

def name : Signal → String
  | start => "Start"
  | stop => "Stop"

end Signal

namespace Instruction

def make? (opcode : Opcode) (operands : List Int) : Option Instruction :=
  if h : Fits opcode.layout operands then some ⟨opcode, operands, h⟩ else none

-- The instruction of an opcode whose operands are all zero.
def plain (opcode : Opcode) : Instruction :=
  ⟨opcode, opcode.layout.map fun _ => 0, fits_zeros opcode.layout⟩

def signal : Signal → Instruction
  | .start => ⟨.emit, [0], by decide⟩
  | .stop => ⟨.emit, [1], by decide⟩

def encode (i : Instruction) : Bytes := i.opcode.byte :: encodeOperands i.opcode.layout i.operands

-- The number of bytes that the instruction takes.
def length (i : Instruction) : Nat := 1 + i.opcode.width

def text (i : Instruction) : String :=
  " ".intercalate (i.opcode.mnemonic :: i.operands.map toString)

-- The place in the code that a jump goes to. A call names a function, not a place.
def target? (i : Instruction) : Option Int :=
  match i.opcode with
  | .jmp | .branch => i.operands.head?
  | _ => none

theorem length_encodeOperands {types : List OperandType} {operands : List Int}
    (h : Fits types operands) :
    (encodeOperands types operands).length = OperandType.totalWidth types := by
  induction types generalizing operands with
  | nil => cases operands <;> rfl
  | cons type types ih =>
    cases operands with
    | nil => exact False.elim h
    | cons n rest =>
      simp [encodeOperands, OperandType.totalWidth, OperandType.length_encode, ih h.2]

theorem length_encode (i : Instruction) : i.encode.length = i.length := by
  simp [encode, length, Opcode.width, length_encodeOperands i.fits, Nat.add_comm]

end Instruction

end Conductor
