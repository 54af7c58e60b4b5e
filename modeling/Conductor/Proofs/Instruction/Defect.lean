import Conductor.Proofs.Instruction.Stream
import Mathlib.Logic.ExistsUnique

namespace Conductor

theorem Archive.split?_eq_none_iff {n : Nat} {bytes : Bytes} :
    split? n bytes = none ↔ bytes.length < n := by
  induction n generalizing bytes with
  | zero => simp [split?]
  | succ n ih => cases bytes <;> simp [split?, ih]

namespace OperandType

theorem toNat_normalize_emod {t : OperandType} {n : Nat} (h : n < t.modulus) :
    (t.normalize n % t.modulus).toNat = n := by
  have hback : t.normalize n % t.modulus = n := by
    rw [normalize, Int.emod_add_emod, Int.sub_add_cancel]
    exact Int.emod_eq_of_lt (Int.natCast_nonneg n) (Int.ofNat_lt.mpr h)
  rw [hback, Int.toNat_natCast]

-- Reading takes the bytes of the number that it yields from the front.
theorem append_encode_of_decode? {t : OperandType} {bytes rest : Bytes}
    {n : { n : Int // t.Fits n }}
    (h : t.decode? bytes = some (n, rest)) : bytes = t.encode n ++ rest := by
  obtain ⟨⟨front, tail⟩, hsplit, heq⟩ := Option.map_eq_some_iff.mp h
  obtain ⟨rfl, hfront⟩ := Archive.append_of_split? hsplit
  cases heq
  have hlt : leNat front < t.modulus := by
    rw [modulus, ← hfront]
    exact leNat_lt front
  rw [encode, toNat_normalize_emod hlt, ← hfront, leBytes_leNat]

theorem decode?_eq_none_iff {t : OperandType} {bytes : Bytes} :
    t.decode? bytes = none ↔ bytes.length < t.width :=
  Option.map_eq_none_iff.trans Archive.split?_eq_none_iff

end OperandType

namespace Instruction

theorem append_encodeOperands_of_decodeOperands? {types : List OperandType} {bytes rest : Bytes}
    {operands : { operands : List Int // Fits types operands }}
    (h : decodeOperands? types bytes = some (operands, rest)) :
    bytes = encodeOperands types operands ++ rest := by
  induction types generalizing bytes rest with
  | nil =>
    simp only [decodeOperands?, Option.some.injEq, Prod.mk.injEq] at h
    obtain ⟨rfl, rfl⟩ := h
    rfl
  | cons type types ih =>
    simp only [decodeOperands?, Option.pure_def, Option.bind_eq_bind, Option.bind_eq_some_iff,
      Option.some.injEq, Prod.mk.injEq, Prod.exists] at h
    obtain ⟨n, middle, hfirst, inner, tail, hinner, rfl, rfl⟩ := h
    rw [OperandType.append_encode_of_decode? hfirst, ih hinner, encodeOperands, List.append_assoc]

-- Operands fail to decode only for want of bytes, wherever among them the bytes run out.
theorem decodeOperands?_eq_none_iff {types : List OperandType} {bytes : Bytes} :
    decodeOperands? types bytes = none ↔ bytes.length < OperandType.totalWidth types := by
  induction types generalizing bytes with
  | nil => simp [decodeOperands?, OperandType.totalWidth]
  | cons type types ih =>
    rw [decodeOperands?, OperandType.totalWidth]
    cases hfirst : type.decode? bytes with
    | none =>
      have hshort := OperandType.decode?_eq_none_iff.mp hfirst
      simp only [Option.bind_eq_bind, Option.bind_none, true_iff]
      omega
    | some result =>
      obtain ⟨n, middle⟩ := result
      have hlength := OperandType.length_of_decode? hfirst
      have hiff : (decodeOperands? types middle = none) ↔
          bytes.length < type.width + OperandType.totalWidth types := by
        rw [ih]
        omega
      rw [← hiff]
      cases hrest : decodeOperands? types middle <;> simp [hrest]

end Instruction

namespace Decoder

open Instruction

-- A decoder that has come to its offset in these bytes. It looks at no byte outside of them.
structure Within (bytes : Bytes) (d : Decoder) : Prop where
  rest : d.rest = bytes.drop d.offset
  offset : d.offset ≤ bytes.length

-- The decoders that calls of another one lead to.
inductive Called (d : Decoder) : Decoder → Prop
  | start : Called d d
  | call {e after : Decoder} {item : Except CodeFault Placed} (h : Called d e)
      (hnext : e.next? = some (item, after)) : Called d after

inductive Ending where
  | whole
  | invalidOpcode
  | truncated

-- What stands where the decoding ends, and what the decoder yields for it.
def Ending.Holds (bytes : Bytes) (offset : Nat) (tail : List (Except CodeFault Placed)) :
    Ending → Prop
  | whole => offset = bytes.length ∧ tail = []
  | invalidOpcode => ∃ byte, bytes[offset]? = some byte ∧ Opcode.ofByte? byte = none ∧
      tail = [.error (.invalidOpcode byte offset)]
  | truncated => ∃ byte opcode, bytes[offset]? = some byte ∧ Opcode.ofByte? byte = some opcode ∧
      bytes.length - (offset + 1) < opcode.width ∧ tail = [.error (.truncated opcode offset)]

theorem Ending.holds_unique {bytes : Bytes} {offset : Nat} {tail : List (Except CodeFault Placed)}
    {first second : Ending} (hfirst : first.Holds bytes offset tail)
    (hsecond : second.Holds bytes offset tail) : first = second := by
  cases first <;> cases second <;> grind [Holds]

variable {bytes : Bytes} {d : Decoder}

theorem Within.advance (h : Within bytes d) {front rest : Bytes} (hrest : d.rest = front ++ rest) :
    Within bytes { rest, offset := d.offset + front.length } := by
  have hdrop := h.rest
  have hlength := congrArg List.length hdrop
  rw [hrest, List.length_append, List.length_drop] at hlength
  have hoffset := h.offset
  refine ⟨?_, by simp only; omega⟩
  rw [← List.drop_drop, ← hdrop, hrest, List.drop_left]

-- One call of a decoder that has not failed: the end, an instruction that the bytes begin with, or
-- a fault where there is none.
theorem Within.next?_cases (h : Within bytes d) (hfailed : d.failed = false) :
    (d.next? = none ∧ d.offset = bytes.length) ∨
    (∃ i rest, d.rest = i.encode ++ rest ∧
      d.next? = some (.ok (d.offset, i), { rest, offset := d.offset + i.length })) ∨
    ∃ fault ending, Ending.Holds bytes d.offset [.error fault] ending ∧
      d.next? = some (.error fault, { d with failed := true }) := by
  obtain ⟨rest, offset, failed⟩ := d
  obtain ⟨hrest, hoffset⟩ := h
  simp only at hfailed hrest hoffset ⊢
  subst hfailed hrest
  cases hdrop : bytes.drop offset with
  | nil =>
    have hend : bytes.length ≤ offset := List.drop_eq_nil_iff.mp hdrop
    exact .inl ⟨rfl, Nat.le_antisymm hoffset hend⟩
  | cons byte rest =>
    have hbyte : bytes[offset]? = some byte := by
      rw [← Nat.add_zero offset, ← List.getElem?_drop, hdrop, List.getElem?_cons_zero]
    have hlength : rest.length = bytes.length - (offset + 1) := by
      have hcons := congrArg List.length hdrop
      rw [List.length_drop, List.length_cons] at hcons
      omega
    refine .inr ?_
    simp only [next?, Bool.false_eq_true, ite_false]
    cases hopcode : Opcode.ofByte? byte with
    | none => exact .inr ⟨_, .invalidOpcode, ⟨byte, hbyte, hopcode, rfl⟩, rfl⟩
    | some opcode =>
      cases hoperands : decodeOperands? opcode.layout rest with
      | none =>
        have hshort := decodeOperands?_eq_none_iff.mp hoperands
        rw [hlength] at hshort
        exact .inr ⟨_, .truncated, ⟨byte, opcode, hbyte, hopcode, hshort, rfl⟩,
          by simp only [hoperands]⟩
      | some result =>
        obtain ⟨operands, tail⟩ := result
        refine .inl ⟨⟨opcode, operands.val, operands.property⟩, tail, ?_, by simp only [hoperands]⟩
        rw [encode, Opcode.byte_of_ofByte? hopcode, List.cons_append,
          ← append_encodeOperands_of_decodeOperands? hoperands]

theorem next?_of_failed (h : d.failed = true) : d.next? = none := by rw [next?, if_pos h]

theorem Within.of_next? (h : Within bytes d) {item : Except CodeFault Placed} {after : Decoder}
    (hnext : d.next? = some (item, after)) :
    Within bytes after ∧ ∀ fault, item = .error fault → after.next? = none := by
  cases hfailed : d.failed with
  | true =>
    rw [next?_of_failed hfailed] at hnext
    cases hnext
  | false =>
    obtain ⟨hnone, _⟩ | ⟨i, rest, hrest, hsome⟩ | ⟨fault, _, _, hsome⟩ := h.next?_cases hfailed
    · rw [hnone] at hnext
      cases hnext
    · rw [hsome] at hnext
      cases hnext
      rw [← i.length_encode]
      exact ⟨h.advance hrest, nofun⟩
    · rw [hsome] at hnext
      cases hnext
      exact ⟨⟨h.rest, h.offset⟩, fun _ _ => next?_of_failed rfl⟩

theorem Called.within {e : Decoder} (hcalled : Called d e) (h : Within bytes d) :
    Within bytes e := by
  induction hcalled with
  | start => exact h
  | call _ hnext ih => exact (ih.of_next? hnext).1

theorem Within.run_cases (h : Within bytes d) (hfailed : d.failed = false) :
    ∃ code tail ending, d.run.1 = (Program.place d.offset code).map .ok ++ tail ∧
      d.rest = code.flatMap encode ++ d.run.2.rest ∧ Within bytes d.run.2 ∧
      Ending.Holds bytes d.run.2.offset tail ending ∧ d.run.2.next? = none := by
  induction d using run.induct with
  | case1 d hnext =>
    rw [run_of_next?_eq_none hnext]
    obtain ⟨_, hend⟩ | ⟨_, _, _, hsome⟩ | ⟨_, _, _, hsome⟩ := h.next?_cases hfailed
    · exact ⟨[], [], .whole, rfl, rfl, h, ⟨hend, rfl⟩, hnext⟩
    · rw [hnext] at hsome
      cases hsome
    · rw [hnext] at hsome
      cases hsome
  | case2 d item after hnext _ _ _ ih =>
    rw [run_of_next? hnext]
    obtain ⟨hnone, _⟩ | ⟨i, rest, hrest, hsome⟩ | ⟨fault, ending, hholds, hsome⟩ :=
      h.next?_cases hfailed
    · rw [hnone] at hnext
      cases hnext
    · rw [hsome] at hnext
      cases hnext
      have hwithin := h.advance hrest
      rw [i.length_encode] at hwithin
      obtain ⟨code, tail, ending, hitems, hbytes, hlast, hholds, hover⟩ := ih hwithin rfl
      refine ⟨i :: code, tail, ending, ?_, ?_, hlast, hholds, hover⟩
      · rw [hitems]
        rfl
      · rw [hrest, List.flatMap_cons, List.append_assoc, ← hbytes]
    · rw [hsome] at hnext
      cases hnext
      have hover : next? { d with failed := true } = none := next?_of_failed rfl
      rw [run_of_next?_eq_none hover]
      exact ⟨[], [.error fault], ending, rfl, rfl, ⟨h.rest, h.offset⟩, hholds, hover⟩

-- Decoding any bytes yields the instructions that they begin with and ends in one of three ways. No
-- call looks outside of the bytes, and after a fault there is nothing more.
theorem run_stops_at_first_defect (bytes : Bytes) :
    ∃ code tail, (run { rest := bytes }).1 = (Program.place 0 code).map .ok ++ tail ∧
      code.flatMap encode = bytes.take (run { rest := bytes }).2.offset ∧
      (run { rest := bytes }).2.offset ≤ bytes.length ∧
      (∃! ending, Ending.Holds bytes (run { rest := bytes }).2.offset tail ending) ∧
      (run { rest := bytes }).2.next? = none ∧
      ∀ d, Called { rest := bytes } d → Within bytes d ∧
        ∀ fault after, d.next? = some (.error fault, after) → after.next? = none := by
  have hstart : Within bytes { rest := bytes } := ⟨rfl, Nat.zero_le _⟩
  obtain ⟨code, tail, ending, hitems, hbytes, hlast, hholds, hover⟩ := hstart.run_cases rfl
  refine ⟨code, tail, hitems, ?_, hlast.offset,
    ⟨ending, hholds, fun _ h => Ending.holds_unique h hholds⟩, hover, fun d hcalled => ?_⟩
  · have hsplit := List.take_append_drop (run { rest := bytes }).2.offset bytes
    rw [← hlast.rest] at hsplit
    exact List.append_cancel_right (hbytes.symm.trans hsplit.symm)
  · have hwithin := hcalled.within hstart
    exact ⟨hwithin, fun fault after hnext => (hwithin.of_next? hnext).2 fault rfl⟩

end Decoder

end Conductor
