import Conductor.Instruction.Basic

namespace Conductor

inductive CodeFault where
  | invalidOpcode (byte : UInt8) (offset : Nat)
  | truncated (opcode : Opcode) (offset : Nat)
deriving DecidableEq

namespace CodeFault

-- A byte as two hexadecimal digits.
def hex (byte : UInt8) : String :=
  String.ofList [Nat.digitChar (byte.toNat / 16), Nat.digitChar (byte.toNat % 16)]

def message : CodeFault → String
  | invalidOpcode byte offset => s!"invalid opcode byte 0x{hex byte} at offset {offset}"
  | truncated opcode offset => s!"{opcode.mnemonic} at offset {offset} is cut short"

end CodeFault

-- An instruction with its offset in the code.
abbrev Placed := Nat × Instruction

structure Decoder where
  rest : Bytes
  offset : Nat := 0
  failed : Bool := false

namespace Decoder

-- The next instruction, or the fault that ends the decoding; nothing at the end and after a fault.
def next? (d : Decoder) : Option (Except CodeFault Placed × Decoder) :=
  if d.failed then none
  else
    match d.rest with
    | [] => none
    | byte :: rest =>
      match Opcode.ofByte? byte with
      | none => some (.error (.invalidOpcode byte d.offset), { d with failed := true })
      | some opcode =>
        match Instruction.decodeOperands? opcode.layout rest with
        | none => some (.error (.truncated opcode d.offset), { d with failed := true })
        | some (operands, rest) =>
          let instruction : Instruction := ⟨opcode, operands.val, operands.property⟩
          some (.ok (d.offset, instruction),
            { d with rest, offset := d.offset + instruction.length })

-- What is left to do, and more after a success than after a fault.
def remaining (d : Decoder) : Nat := if d.failed then 0 else d.rest.length + 1

theorem length_le_of_decodeOperands? {types : List OperandType} {bytes rest : Bytes}
    {operands : { operands : List Int // Instruction.Fits types operands }}
    (h : Instruction.decodeOperands? types bytes = some (operands, rest)) :
    rest.length ≤ bytes.length := by
  induction types generalizing bytes rest with
  | nil =>
    simp only [Instruction.decodeOperands?, Option.some.injEq, Prod.mk.injEq] at h
    obtain ⟨_, rfl⟩ := h
    exact Nat.le_refl _
  | cons type types ih =>
    simp only [Instruction.decodeOperands?, Option.pure_def, Option.bind_eq_bind,
      Option.bind_eq_some_iff, Option.some.injEq, Prod.mk.injEq, Prod.exists] at h
    obtain ⟨n, middle, hfront, inner, tail, hinner, _, rfl⟩ := h
    have hlength := OperandType.length_of_decode? hfront
    have hle := ih hinner
    omega

theorem remaining_lt_of_next? {d after : Decoder} {item : Except CodeFault Placed}
    (h : d.next? = some (item, after)) : after.remaining < d.remaining := by
  unfold next? at h
  split at h
  · cases h
  · rename_i hfailed
    split at h
    · cases h
    · rename_i byte rest hrest
      split at h
      · simp only [Option.some.injEq, Prod.mk.injEq] at h
        obtain ⟨_, rfl⟩ := h
        simp [remaining, hfailed]
      · split at h
        · simp only [Option.some.injEq, Prod.mk.injEq] at h
          obtain ⟨_, rfl⟩ := h
          simp [remaining, hfailed]
        · rename_i hoperands
          simp only [Option.some.injEq, Prod.mk.injEq] at h
          obtain ⟨_, rfl⟩ := h
          have hle := length_le_of_decodeOperands? hoperands
          simp only [remaining, hfailed, hrest, Bool.false_eq_true, ite_false, List.length_cons]
          omega

-- Everything the decoder still yields, and the decoder after it.
def run (d : Decoder) : List (Except CodeFault Placed) × Decoder :=
  match _h : d.next? with
  | none => ([], d)
  | some (item, after) =>
    let (items, last) := after.run
    (item :: items, last)
termination_by d.remaining
decreasing_by exact remaining_lt_of_next? _h

def isAtEnd (d : Decoder) : Bool := d.rest.isEmpty

-- The instructions of a whole code section, or its first fault.
def instructions (code : Bytes) : Except CodeFault (List Placed) :=
  (Decoder.run { rest := code }).1.mapM id

end Decoder

end Conductor
