import Conductor.Artifact.Program
import Mathlib.Data.List.Forall2

namespace Conductor

namespace Instruction

theorem decodeOperands?_encodeOperands {types : List OperandType} {operands : List Int}
    (h : Fits types operands) (rest : Bytes) :
    decodeOperands? types (encodeOperands types operands ++ rest) = some (⟨operands, h⟩, rest) := by
  induction types generalizing operands with
  | nil =>
    cases operands with
    | nil => rfl
    | cons n operands => cases h
  | cons type types ih =>
    cases operands with
    | nil => cases h
    | cons n operands =>
      obtain ⟨hn, hoperands⟩ := h
      rw [encodeOperands, List.append_assoc, decodeOperands?, type.decode?_encode n hn]
      simp only [Option.bind_eq_bind, Option.bind_some, ih hoperands]
      rfl

-- The number of bytes of instructions one behind the other.
def totalLength : List Instruction → Nat
  | [] => 0
  | i :: rest => i.length + totalLength rest

end Instruction

namespace Decoder

theorem next?_encode (i : Instruction) (rest : Bytes) (offset : Nat) :
    next? { rest := i.encode ++ rest, offset } =
      some (.ok (offset, i), { rest, offset := offset + i.length }) := by
  have hoperands := Instruction.decodeOperands?_encodeOperands i.fits rest
  simp only [next?, Instruction.encode, List.cons_append, Bool.false_eq_true, ite_false,
    Opcode.ofByte?_byte, hoperands]

theorem run_of_next? {d after : Decoder} {item : Except CodeFault Placed}
    (h : d.next? = some (item, after)) : d.run = (item :: after.run.1, after.run.2) := by
  rw [run]
  split
  · rename_i hnone
    rw [h] at hnone
    cases hnone
  · rename_i hsome
    rw [h] at hsome
    cases hsome
    rfl

theorem run_of_next?_eq_none {d : Decoder} (h : d.next? = none) : d.run = ([], d) := by
  rw [run]
  split
  · rfl
  · rename_i hsome
    rw [h] at hsome
    cases hsome

theorem run_flatMap_encode (code : List Instruction) (rest : Bytes) (offset : Nat) :
    run { rest := code.flatMap Instruction.encode ++ rest, offset } =
      ((Program.place offset code).map .ok ++
        (run { rest, offset := offset + Instruction.totalLength code }).1,
        (run { rest, offset := offset + Instruction.totalLength code }).2) := by
  induction code generalizing offset with
  | nil => rfl
  | cons i code ih =>
    have hnext := next?_encode i (code.flatMap Instruction.encode ++ rest) offset
    rw [List.flatMap_cons, List.append_assoc, run_of_next? hnext, ih, Instruction.totalLength,
      ← Nat.add_assoc]
    rfl

theorem run_nil (offset : Nat) : run { rest := [], offset } = ([], { rest := [], offset }) :=
  run_of_next?_eq_none rfl

theorem mapM_id_map_ok {ε α : Type} (items : List α) :
    (items.map Except.ok).mapM id = (.ok items : Except ε (List α)) := by
  induction items with
  | nil => rfl
  | cons item rest ih =>
    rw [List.map_cons, List.mapM_cons, ih]
    rfl

theorem mapM_id_append_error {ε α : Type} (items : List α) (error : ε) :
    (items.map Except.ok ++ [Except.error error]).mapM id = (.error error : Except ε (List α)) := by
  induction items with
  | nil => rfl
  | cons item rest ih =>
    rw [List.map_cons, List.cons_append, List.mapM_cons, ih]
    rfl

theorem instructions_flatMap_encode (code : List Instruction) :
    instructions (code.flatMap Instruction.encode) = .ok (Program.place 0 code) := by
  have hrun := run_flatMap_encode code [] 0
  rw [run_nil, List.append_nil, List.append_nil] at hrun
  rw [instructions, hrun, mapM_id_map_ok]

end Decoder

namespace Program

theorem map_snd_place (offset : Nat) (code : List Instruction) :
    (place offset code).map Prod.snd = code := by
  induction code generalizing offset with
  | nil => rfl
  | cons i code ih => rw [place, List.map_cons, ih]

-- Each instruction stands where the ones before it end.
theorem getElem?_place (offset : Nat) (code : List Instruction) (n : Nat) :
    (place offset code)[n]? =
      code[n]?.map fun i => (offset + Instruction.totalLength (code.take n), i) := by
  induction code generalizing offset n with
  | nil => rfl
  | cons i code ih =>
    cases n with
    | zero => rfl
    | succ n =>
      rw [place, List.getElem?_cons_succ, List.getElem?_cons_succ, List.take_succ_cons,
        Instruction.totalLength, ih, Nat.add_assoc]

end Program

end Conductor
