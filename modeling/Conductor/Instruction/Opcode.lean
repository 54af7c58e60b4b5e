import Conductor.Instruction.Operand
import Conductor.Operator

namespace Conductor

inductive Opcode where
  | call
  | emit
  | push
  | mktype
  | store
  | load
  | astore
  | aload
  | not
  | neg
  | or
  | and
  | lt
  | le
  | gt
  | ge
  | eq
  | ne
  | add
  | sub
  | mul
  | div
  | mod
  | exp
  | jmp
  | branch
  | ret
  | trap
  | mtrap
deriving DecidableEq

namespace Opcode

-- Every opcode. Its place in the list is its byte.
def all : List Opcode :=
  [call, emit, push, mktype, store, load, astore, aload, not, neg, or, and, lt, le, gt, ge, eq, ne,
    add, sub, mul, div, mod, exp, jmp, branch, ret, trap, mtrap]

def number (op : Opcode) : Nat := all.idxOf op

def byte (op : Opcode) : UInt8 := UInt8.ofNat op.number

def ofByte? (byte : UInt8) : Option Opcode := all[byte.toNat]?

def mnemonic : Opcode → String
  | call => "CALL"
  | emit => "EMIT"
  | push => "PUSH"
  | mktype => "MKTYPE"
  | store => "STORE"
  | load => "LOAD"
  | astore => "ASTORE"
  | aload => "ALOAD"
  | not => "NOT"
  | neg => "NEG"
  | or => "OR"
  | and => "AND"
  | lt => "LT"
  | le => "LE"
  | gt => "GT"
  | ge => "GE"
  | eq => "EQ"
  | ne => "NE"
  | add => "ADD"
  | sub => "SUB"
  | mul => "MUL"
  | div => "DIV"
  | mod => "MOD"
  | exp => "EXP"
  | jmp => "JMP"
  | branch => "BRANCH"
  | ret => "RETURN"
  | trap => "TRAP"
  | mtrap => "MTRAP"

def ofMnemonic? (mnemonic : String) : Option Opcode := all.find? (·.mnemonic == mnemonic)

-- The types of the operands in the order in which they are stored.
def layout : Opcode → List OperandType
  | call | trap => [.u16, .u8]
  | push | jmp | branch | mtrap => [.u16]
  | mktype => [.u8, .u8]
  | emit | store | load => [.u8]
  | _ => []

-- The number of operand bytes.
def width (op : Opcode) : Nat := OperandType.totalWidth op.layout

def binary? : Opcode → Option BinaryOp
  | or => some .or
  | and => some .and
  | lt => some .lt
  | le => some .le
  | gt => some .gt
  | ge => some .ge
  | eq => some .eq
  | ne => some .ne
  | add => some .add
  | sub => some .sub
  | mul => some .mul
  | div => some .div
  | mod => some .mod
  | exp => some .exp
  | _ => none

def unary? : Opcode → Option UnaryOp
  | not => some .not
  | neg => some .neg
  | _ => none

def ofBinary : BinaryOp → Opcode
  | .or => or
  | .and => and
  | .lt => lt
  | .le => le
  | .gt => gt
  | .ge => ge
  | .eq => eq
  | .ne => ne
  | .add => add
  | .sub => sub
  | .mul => mul
  | .div => div
  | .mod => mod
  | .exp => exp

theorem ofByte?_byte (op : Opcode) : ofByte? op.byte = some op := by cases op <;> rfl

theorem byte_of_ofByte? {byte : UInt8} {op : Opcode} (h : ofByte? byte = some op) :
    op.byte = byte := by
  have hlt : byte.toNat < all.length := by
    have hsome := List.getElem?_eq_some_iff.mp h
    exact hsome.1
  have hcases : ∀ n : Fin all.length, ∀ op : Opcode, all[n.val]? = some op → op.number = n.val := by
    intro n op hop
    cases op <;> revert hop <;> revert n <;> decide
  have hnumber := hcases ⟨byte.toNat, hlt⟩ op h
  rw [Opcode.byte, hnumber]
  exact UInt8.ofNat_toNat

theorem binary?_ofBinary (op : BinaryOp) : (ofBinary op).binary? = some op := by cases op <;> rfl

end Opcode

end Conductor
