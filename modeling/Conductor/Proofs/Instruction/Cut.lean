import Conductor.Proofs.Instruction.Defect
import Conductor.Proofs.Instruction.Relocation

namespace Conductor

namespace Instruction

theorem length_pos (i : Instruction) : 0 < i.length := by
  rw [length]
  omega

-- The instructions before a place, and the one that begins there or that the place is inside of.
theorem exists_split {code : List Instruction} {m : Nat} (h : m < totalLength code) :
    ∃ before i after, code = before ++ i :: after ∧
      totalLength before ≤ m ∧ m < totalLength before + i.length := by
  induction code generalizing m with
  | nil => exact absurd h (Nat.not_lt_zero m)
  | cons i code ih =>
    by_cases hinside : m < i.length
    · exact ⟨[], i, code, rfl, Nat.zero_le m, by rwa [totalLength, Nat.zero_add]⟩
    · rw [totalLength] at h
      obtain ⟨before, j, after, rfl, hle, hlt⟩ := ih (m := m - i.length) (by omega)
      refine ⟨i :: before, j, after, rfl, ?_, ?_⟩ <;> rw [totalLength] <;> omega

theorem take_flatMap_encode {before after : List Instruction} {i : Instruction} {m : Nat}
    (hle : totalLength before ≤ m) (hlt : m < totalLength before + i.length) :
    ((before ++ i :: after).flatMap encode).take m =
      before.flatMap encode ++ i.encode.take (m - totalLength before) := by
  have hinside : m - totalLength before ≤ i.encode.length := by
    rw [length_encode]
    omega
  rw [List.flatMap_append, List.flatMap_cons, List.take_append, length_flatMap_encode,
    List.take_of_length_le (by rwa [length_flatMap_encode]), List.take_append_of_le_length hinside]

end Instruction

namespace Program

open Instruction

theorem place_append (offset : Nat) (first second : List Instruction) :
    place offset (first ++ second) =
      place offset first ++ place (offset + totalLength first) second := by
  induction first generalizing offset with
  | nil => rfl
  | cons i rest ih =>
    rw [List.cons_append, place, place, ih, totalLength, Nat.add_assoc, List.cons_append]

-- An instruction lies between where the code begins and where it ends.
theorem bounds_of_mem_place {offset : Nat} {code : List Instruction} {placed : Placed}
    (h : placed ∈ place offset code) :
    offset ≤ placed.1 ∧ placed.1 + placed.2.length ≤ offset + totalLength code := by
  induction code generalizing offset with
  | nil => cases h
  | cons i code ih =>
    rw [totalLength]
    rcases List.mem_cons.mp h with rfl | hmem
    · exact ⟨Nat.le_refl _, by simp only; omega⟩
    · have hbounds := ih hmem
      omega

-- An instruction begins at this place.
def Boundary (code : List Placed) (m : Nat) : Prop := ∃ placed ∈ code, placed.1 = m

-- The instructions that end at or before a place.
def endingBy (m : Nat) (code : List Placed) : List Placed :=
  code.filter fun placed => decide (placed.1 + placed.2.length ≤ m)

theorem endingBy_place {before : List Instruction} (i : Instruction) (after : List Instruction) :
    endingBy (totalLength before) (place 0 (before ++ i :: after)) = place 0 before := by
  rw [endingBy, place_append, List.filter_append, Nat.zero_add]
  have hbefore : (place 0 before).filter
      (fun placed => decide (placed.1 + placed.2.length ≤ totalLength before)) = place 0 before :=
    List.filter_eq_self.mpr fun placed hmem => by
      have hbounds := bounds_of_mem_place hmem
      exact decide_eq_true (by omega)
  have hafter : (place (totalLength before) (i :: after)).filter
      (fun placed => decide (placed.1 + placed.2.length ≤ totalLength before)) = [] :=
    List.filter_eq_nil_iff.mpr fun placed hmem => by
      have hbounds := bounds_of_mem_place hmem
      have hpos := placed.2.length_pos
      rw [decide_eq_true_iff]
      omega
  rw [hbefore, hafter, List.append_nil]

end Program

namespace Decoder

open Instruction Program

-- Of an instruction that was cut the opcode is left, but not all of its operands.
theorem next?_take {i : Instruction} {m : Nat} (hpos : 0 < m) (hlt : m < i.length) (offset : Nat) :
    next? { rest := i.encode.take m, offset } =
      some (.error (.truncated i.opcode offset),
        { rest := i.encode.take m, offset, failed := true }) := by
  obtain ⟨m, rfl⟩ := Nat.exists_eq_succ_of_ne_zero (Nat.ne_of_gt hpos)
  have hshort : ((encodeOperands i.opcode.layout i.operands).take m).length <
      OperandType.totalWidth i.opcode.layout := by
    rw [length, Opcode.width] at hlt
    rw [List.length_take]
    omega
  have hnone := decodeOperands?_eq_none_iff.mpr hshort
  simp only [next?, encode, List.take_succ_cons, Bool.false_eq_true, ite_false,
    Opcode.ofByte?_byte, hnone]

theorem instructions_cut {before : List Instruction} {i : Instruction} {m : Nat} (hpos : 0 < m)
    (hlt : m < i.length) :
    instructions (before.flatMap encode ++ i.encode.take m) =
      .error (.truncated i.opcode (totalLength before)) := by
  have hrun := run_flatMap_encode before (i.encode.take m) 0
  have hover : next? { rest := i.encode.take m, offset := totalLength before, failed := true } =
    none := next?_of_failed rfl
  rw [Nat.zero_add, run_of_next? (next?_take hpos hlt _), run_of_next?_eq_none hover] at hrun
  rw [instructions, hrun, mapM_id_append_error]

theorem instructions_take {code : List Instruction} {m : Nat} (h : m < totalLength code) :
    (Boundary (place 0 code) m ∧
      instructions ((code.flatMap encode).take m) = .ok (endingBy m (place 0 code))) ∨
    ¬Boundary (place 0 code) m ∧
      ∃ placed ∈ place 0 code, placed.1 < m ∧ m < placed.1 + placed.2.length ∧
        instructions ((code.flatMap encode).take m) =
          .error (.truncated placed.2.opcode placed.1) := by
  obtain ⟨before, i, after, rfl, hle, hlt⟩ := exists_split h
  have hplace := place_append 0 before (i :: after)
  rw [Nat.zero_add] at hplace
  have hmem : (totalLength before, i) ∈ place 0 (before ++ i :: after) := by
    rw [hplace]
    exact List.mem_append_right _ List.mem_cons_self
  rw [take_flatMap_encode hle hlt]
  obtain rfl | hinside := Nat.eq_or_lt_of_le hle
  · refine .inl ⟨⟨_, hmem, rfl⟩, ?_⟩
    rw [Nat.sub_self, List.take_zero, List.append_nil, instructions_flatMap_encode, endingBy_place]
  · refine .inr ⟨?_, _, hmem, hinside, hlt, instructions_cut (by omega) (by omega)⟩
    -- No other instruction begins inside of this one: they all end before it or begin behind it.
    rintro ⟨placed, hplaced, rfl⟩
    rw [hplace, place] at hplaced
    rcases List.mem_append.mp hplaced with hbefore | hrest
    · have hbounds := bounds_of_mem_place hbefore
      have hpos := placed.2.length_pos
      omega
    · rcases List.mem_cons.mp hrest with rfl | hafter
      · exact Nat.lt_irrefl _ hinside
      · have hbounds := bounds_of_mem_place hafter
        omega

end Decoder

end Conductor
