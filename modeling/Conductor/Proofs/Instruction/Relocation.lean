import Conductor.Proofs.Instruction.Stream

namespace Conductor

def CodeFault.shift (n : Nat) : CodeFault → CodeFault
  | invalidOpcode byte offset => invalidOpcode byte (n + offset)
  | truncated opcode offset => truncated opcode (n + offset)

namespace Instruction

theorem length_flatMap_encode (code : List Instruction) :
    (code.flatMap encode).length = totalLength code := by
  induction code with
  | nil => rfl
  | cons i code ih =>
    rw [List.flatMap_cons, List.length_append, length_encode, ih]
    rfl

-- What is left of encoded instructions from one of them on.
theorem drop_flatMap_encode (code : List Instruction) (rest : Bytes) (n : Nat) :
    (code.flatMap encode ++ rest).drop (totalLength (code.take n)) =
      (code.drop n).flatMap encode ++ rest := by
  have hbytes : code.flatMap encode ++ rest =
      (code.take n).flatMap encode ++ ((code.drop n).flatMap encode ++ rest) := by
    rw [← List.append_assoc, ← List.flatMap_append, List.take_append_drop]
  rw [hbytes, ← length_flatMap_encode, List.drop_left]

-- Reading operands takes the bytes that their layout asks for from the front.
theorem append_of_decodeOperands? {types : List OperandType} {bytes rest : Bytes}
    {operands : { operands : List Int // Fits types operands }}
    (h : decodeOperands? types bytes = some (operands, rest)) :
    ∃ front, bytes = front ++ rest ∧ front.length = OperandType.totalWidth types := by
  induction types generalizing bytes rest with
  | nil =>
    simp only [decodeOperands?, Option.some.injEq, Prod.mk.injEq] at h
    obtain ⟨_, rfl⟩ := h
    exact ⟨[], rfl, rfl⟩
  | cons type types ih =>
    simp only [decodeOperands?, Option.pure_def, Option.bind_eq_bind, Option.bind_eq_some_iff,
      Option.some.injEq, Prod.mk.injEq, Prod.exists] at h
    obtain ⟨n, middle, hfirst, inner, tail, hinner, _, rfl⟩ := h
    obtain ⟨⟨front, _⟩, hsplit, heq⟩ := Option.map_eq_some_iff.mp hfirst
    obtain ⟨rfl, hfront⟩ := Archive.append_of_split? hsplit
    obtain rfl := (Prod.mk.inj heq).2
    obtain ⟨back, rfl, hback⟩ := ih hinner
    refine ⟨front ++ back, (List.append_assoc ..).symm, ?_⟩
    rw [List.length_append, hfront, hback, OperandType.totalWidth]

end Instruction

namespace Decoder

open Instruction

-- A decoder in code that stands behind `n` more bytes, and an item as it yields it.
def shift (n : Nat) (d : Decoder) : Decoder := { d with offset := n + d.offset }

def shiftItem (n : Nat) : Except CodeFault Placed → Except CodeFault Placed
  | .ok (offset, i) => .ok (n + offset, i)
  | .error fault => .error (fault.shift n)

theorem next?_shift (n : Nat) (d : Decoder) :
    (d.shift n).next? = d.next?.map fun (item, after) => (shiftItem n item, after.shift n) := by
  obtain ⟨bytes, offset, failed⟩ := d
  cases failed with
  | true => rfl
  | false =>
    cases bytes with
    | nil => rfl
    | cons byte rest =>
      simp only [next?, shift, Bool.false_eq_true, ite_false]
      cases Opcode.ofByte? byte with
      | none => rfl
      | some opcode =>
        simp only
        cases decodeOperands? opcode.layout rest with
        | none => rfl
        | some result => simp [shiftItem, Nat.add_assoc]

theorem run_shift (n : Nat) (d : Decoder) :
    (d.shift n).run = (d.run.1.map (shiftItem n), d.run.2.shift n) := by
  induction d using run.induct with
  | case1 d hnext =>
    have hshift : (d.shift n).next? = none := by
      rw [next?_shift, hnext]
      rfl
    rw [run_of_next?_eq_none hshift, run_of_next?_eq_none hnext]
    rfl
  | case2 d item after hnext _ _ _ ih =>
    have hshift : (d.shift n).next? = some (shiftItem n item, after.shift n) := by
      rw [next?_shift, hnext]
      rfl
    rw [run_of_next? hshift, run_of_next? hnext, ih]
    rfl

theorem run_flatMap_encode_append (code : List Instruction) (rest : Bytes) :
    run { rest := code.flatMap encode ++ rest } =
      ((Program.place 0 code).map .ok ++ (run { rest }).1.map (shiftItem (totalLength code)),
        (run { rest }).2.shift (totalLength code)) := by
  have hmove : run { rest, offset := totalLength code } =
      ((run { rest }).1.map (shiftItem (totalLength code)),
        (run { rest }).2.shift (totalLength code)) := run_shift (totalLength code) { rest }
  rw [run_flatMap_encode, Nat.zero_add, hmove]

-- A decoder moves over as many bytes as the instruction that it yields takes, and says no more
-- after a fault.
theorem next?_cases {bytes : Bytes} {offset : Nat} {item : Except CodeFault Placed}
    {after : Decoder} (h : next? { rest := bytes, offset } = some (item, after)) :
    (∃ i : Instruction, item = .ok (offset, i) ∧
      after = { rest := bytes.drop i.length, offset := offset + i.length }) ∨
    ∃ fault, item = .error fault ∧ after.run.1 = [] := by
  have hfailed {d : Decoder} (hd : d.failed = true) : d.run.1 = [] := by
    have hnext : d.next? = none := by rw [next?, if_pos hd]
    rw [run_of_next?_eq_none hnext]
  cases bytes with
  | nil => cases h
  | cons byte rest =>
    simp only [next?, Bool.false_eq_true, ite_false] at h
    split at h
    · cases h
      exact .inr ⟨_, rfl, hfailed rfl⟩
    · split at h
      · cases h
        exact .inr ⟨_, rfl, hfailed rfl⟩
      · rename_i opcode _ _ operands tail hoperands
        cases h
        obtain ⟨front, rfl, hfront⟩ := append_of_decodeOperands? hoperands
        have hlength : (byte :: front).length = 1 + opcode.width := by
          rw [List.length_cons, hfront, Opcode.width, Nat.add_comm]
        refine .inl ⟨_, rfl, ?_⟩
        rw [Instruction.length, ← hlength, ← List.cons_append, List.drop_left]

-- A decoder that begins at some instruction yields what was left from there.
theorem run_drop {bytes : Bytes} {start k offset : Nat} {i : Instruction}
    (h : (run { rest := bytes, offset := start }).1[k]? = some (.ok (offset, i))) :
    start ≤ offset ∧ (run { rest := bytes.drop (offset - start), offset }).1 =
      (run { rest := bytes, offset := start }).1.drop k := by
  cases hnext : next? { rest := bytes, offset := start } with
  | none =>
    rw [run_of_next?_eq_none hnext] at h
    cases h
  | some result =>
    obtain ⟨item, after⟩ := result
    have hrun := run_of_next? hnext
    rw [hrun] at h
    obtain ⟨first, rfl, rfl⟩ | ⟨fault, rfl, hend⟩ := next?_cases hnext
    · cases k with
      | zero =>
        cases h
        rw [Nat.sub_self]
        exact ⟨Nat.le_refl _, rfl⟩
      | succ k =>
        obtain ⟨hle, hrest⟩ := run_drop (k := k) h
        have hskip : first.length + (offset - (start + first.length)) = offset - start := by omega
        rw [List.drop_drop, hskip] at hrest
        refine ⟨by omega, ?_⟩
        rw [hrest, hrun, List.drop_succ_cons]
    · cases k with
      | zero => cases h
      | succ k =>
        rw [List.getElem?_cons_succ, hend] at h
        cases h

-- Encoded instructions decode one behind the other, and what follows them decodes as it does on its
-- own, only moved. Decoding can start again at each instruction.
theorem run_append (code : List Instruction) (rest : Bytes) :
    (code.flatMap encode).length = totalLength code ∧
    run { rest := code.flatMap encode ++ rest } =
      ((Program.place 0 code).map .ok ++ (run { rest }).1.map (shiftItem (totalLength code)),
        (run { rest }).2.shift (totalLength code)) ∧
    (∀ n, (Program.place 0 code)[n]? = code[n]?.map fun i => (totalLength (code.take n), i)) ∧
    run { rest := code.flatMap encode } =
      ((Program.place 0 code).map .ok, { rest := [], offset := totalLength code }) ∧
    (∀ n, (run { rest := (code.flatMap encode ++ rest).drop (totalLength (code.take n)) }).1 =
      (Program.place 0 (code.drop n)).map .ok ++
        (run { rest }).1.map (shiftItem (totalLength (code.drop n)))) ∧
    ∀ k offset i, (run { rest := code.flatMap encode ++ rest }).1[k]? = some (.ok (offset, i)) →
      (run { rest := (code.flatMap encode ++ rest).drop offset }).1.map (shiftItem offset) =
        (run { rest := code.flatMap encode ++ rest }).1.drop k := by
  refine ⟨length_flatMap_encode code, run_flatMap_encode_append code rest, fun n => ?_, ?_,
    fun n => ?_, ?_⟩
  · rw [Program.getElem?_place]
    simp only [Nat.zero_add]
  · have hempty := run_flatMap_encode code [] 0
    rw [run_nil, List.append_nil, List.append_nil, Nat.zero_add] at hempty
    exact hempty
  · rw [drop_flatMap_encode, run_flatMap_encode_append]
  · intro k offset i h
    obtain ⟨_, hrest⟩ := run_drop h
    rw [← hrest]
    exact (congrArg Prod.fst (run_shift offset { rest := _ })).symm

end Decoder

end Conductor
