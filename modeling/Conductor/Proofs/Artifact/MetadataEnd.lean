import Conductor.Proofs.Artifact.Sections

namespace Conductor

open Archive

namespace Serializer

variable {session after : Serializer} {table : SymbolTable} {word : UInt32}

-- The session has put a table on its stream, behind a word that is the position of its end. What
-- was before its position is still there, and of what was behind it just as many bytes are gone.
structure Seals (table : SymbolTable) (session : Serializer) (word : UInt32) (after : Serializer) :
    Prop where
  toNat_eq : word.toNat =
    session.sink.position + 4 + (SymbolTable.emission table.byId).bytes.length
  position_eq : after.sink.position = word.toNat
  toList_eq : after.sink.bytes.toList =
    session.sink.bytes.toList ++ leBytes 4 word.toNat ++ (SymbolTable.emission table.byId).bytes
  rest_eq : after.sink.rest =
    session.sink.rest.drop (4 + (SymbolTable.emission table.byId).bytes.length)

theorem seals_of_writeMetadata (h : Returns (writeMetadata table) session word after) :
    Seals table session word after := by
  obtain ⟨_, _, _, hend, rfl, middle, hdelivers, rfl⟩ := returns_writeMetadata_iff.mp h
  have hword : (UInt32.ofNat (session.metadataEnd (SymbolTable.emission table.byId))).toNat =
      session.metadataEnd (SymbolTable.emission table.byId) :=
    UInt32.toNat_ofNat_of_lt' (Nat.lt_of_le_pred (by decide) hend)
  have hbytes : middle = session.grown
      (leBytes 4 (session.metadataEnd (SymbolTable.emission table.byId)) ++
        (SymbolTable.emission table.byId).bytes) := by
    rw [hdelivers.grows, Emission.append_of_unharmed _ rfl]
    rfl
  rw [hbytes]
  refine ⟨hword, ?_, ?_, ?_⟩
  · rw [hword, metadataEnd, Nat.add_assoc]
    simp only [grown, Sink.position_grown, List.length_append, length_leBytes]
  · simp only [grown, Sink.toList_grown, hword, List.append_assoc]
  · simp only [grown, Sink.rest_grown, List.length_append, length_leBytes]

-- It is the turn of the table, the numbers of its functions differ, a word holds the position of
-- its end, and the stream takes the room for the word and the table.
structure Sealable (table : SymbolTable) (session : Serializer) : Prop where
  poisoned : session.poisoned = false
  phase : session.phase = .metadata
  ids : (table.toList.map fun function => function.2.id).Nodup
  metadata :
    session.sink.position + 4 + (SymbolTable.emission table.byId).bytes.length < UInt32.size
  takes : session.sink.Takes (leBytes 4 0 ++ (SymbolTable.emission table.byId).bytes)

theorem Sealable.exists_carries (h : Sealable table session) :
    ∃ functions, Carries (SymbolTable.emission table.byId) SymbolTable.read functions := by
  have hsize : 4 + (SymbolTable.emission table.byId).bytes.length < UInt32.size :=
    Nat.lt_of_le_of_lt (by omega) h.metadata
  obtain ⟨functions, hcarries, _⟩ := SymbolTable.exists_carries_byId h.ids hsize
  exact ⟨functions, hcarries⟩

theorem exists_writeMetadata_iff :
    (∃ word after, Returns (writeMetadata table) session word after) ↔ Sealable table session := by
  -- What stands in the room does not matter for how much of it there is.
  have htakes (word : Nat) :
      session.sink.Takes (Emission.number 4 word ++ SymbolTable.emission table.byId).bytes ↔
        session.sink.Takes (leBytes 4 0 ++ (SymbolTable.emission table.byId).bytes) := by
    rw [Emission.append_of_unharmed _ rfl]
    simp only [Sink.Takes, Emission.number, List.length_append, length_leBytes]
  simp only [returns_writeMetadata_iff]
  constructor
  · rintro ⟨_, _, hpoisoned, hphase, hids, hend, _, _, hdelivers, _⟩
    exact ⟨hpoisoned, hphase, hids, Nat.lt_of_le_pred (by decide) hend,
      (htakes _).mp hdelivers.takes⟩
  · intro h
    obtain ⟨_, htable⟩ := h.exists_carries
    refine ⟨_, _, h.poisoned, h.phase, h.ids, Nat.le_pred_of_lt h.metadata, rfl, _,
      ⟨?_, (htakes _).mpr h.takes, rfl⟩, rfl⟩
    rw [Emission.append_of_unharmed _ rfl, htable.unharmed]

theorem finish_eq_ok {artifact : Bytes} (h : session.finish = .ok artifact) :
    artifact = session.sink.bytes.toList := by
  rw [finish] at h
  split at h
  · cases h
  · split at h <;> cases h
    rfl

-- What is on the stream stays there.
theorem Delivers.isPrefix {emission : Emission} (h : Delivers emission session after) :
    session.sink.bytes.toList <+: after.sink.bytes.toList := by
  rw [h.grows]
  exact ⟨emission.bytes, (Sink.toList_grown ..).symm⟩

theorem isPrefix_of_writeCode {code : List Instruction}
    (h : Returns (writeCode code) session () after) :
    session.sink.bytes.toList <+: after.sink.bytes.toList := by
  induction code generalizing session with
  | nil =>
    obtain ⟨_, rfl⟩ := returns_pure_iff.mp h
    exact List.prefix_refl _
  | cons i code ih =>
    obtain ⟨_, middle, hfirst, hrest⟩ := returns_bind_iff.mp h
    obtain ⟨_, _, hdelivers⟩ := returns_writeInstruction_iff.mp hfirst
    exact hdelivers.isPrefix.trans (ih hrest)

end Serializer

namespace Program

open Serializer

variable {session last : Serializer} {s : Store} {p : Program Value}

-- The sections behind the symbol table leave it as it is.
theorem exists_writeMetadata_of_writeTo (h : Returns (writeTo s p) session () last) :
    ∃ word first, Returns (writeMetadata p.functions) session word first ∧
      first.sink.bytes.toList <+: last.sink.bytes.toList := by
  obtain ⟨word, first, hmetadata, h⟩ := returns_bind_iff.mp h
  obtain ⟨_, second, hheader, h⟩ := returns_bind_iff.mp h
  obtain ⟨_, third, hliterals, hcode⟩ := returns_bind_iff.mp h
  obtain ⟨_, _, _, beforePool, htasks, rfl⟩ := returns_writeHeader_iff.mp hheader
  obtain ⟨_, _, _, _, beforeCode, hpool, rfl⟩ := returns_writeLiterals_iff.mp hliterals
  have hlast := isPrefix_of_writeCode hcode
  exact ⟨word, first, hmetadata, htasks.isPrefix.trans (hpool.isPrefix.trans hlast)⟩

-- A table that does not end where the word in front of it says.
theorem read_eq_metadataOffset {table : Emission} {functions : SymbolTable} {expected : Nat}
    (htable : Carries table SymbolTable.read functions) (hword : expected < byteCapacity 4)
    (front rest : Bytes) (hne : expected ≠ front.length + 4 + table.bytes.length) :
    read (front ++ leBytes 4 expected ++ table.bytes ++ rest) front.length =
      .error (.metadataOffset expected (front.length + 4 + table.bytes.length)) := by
  have hget : (get : Reader Bytes) rest = .ok (rest, rest) := rfl
  have hactual : (front ++ leBytes 4 expected ++ table.bytes ++ rest).length - rest.length =
      front.length + 4 + table.bytes.length := by
    simp only [List.length_append, length_leBytes]
    omega
  have hdrop : (front ++ leBytes 4 expected ++ table.bytes ++ rest).drop front.length =
      leBytes 4 expected ++ (table.bytes ++ rest) := by
    simp only [List.append_assoc, List.drop_left]
  rw [read, hdrop, reader, read_bind (number_leBytes hword _),
    read_bind (archived_append htable.reads _), read_bind hget, hactual, if_pos hne.symm]
  rfl

-- Another word in the place of the one that was written.
theorem read_replaced {table : Emission} {functions : SymbolTable} {word other : UInt32}
    {front more artifact : Bytes} (htable : Carries table SymbolTable.read functions)
    (hword : word.toNat = front.length + 4 + table.bytes.length)
    (hartifact : artifact = front ++ leBytes 4 word.toNat ++ table.bytes ++ more)
    (hne : leBytes 4 other.toNat ≠ (artifact.drop front.length).take 4) (behind : Bytes) :
    read (artifact.take front.length ++ leBytes 4 other.toNat ++ artifact.drop (front.length + 4) ++
        behind) front.length =
      .error (.metadataOffset other.toNat word.toNat) := by
  have hback : artifact.drop front.length = leBytes 4 word.toNat ++ (table.bytes ++ more) := by
    rw [hartifact, List.append_assoc, List.append_assoc, List.drop_left]
  have hstays : (artifact.drop front.length).take 4 = leBytes 4 word.toNat := by
    rw [hback]
    exact List.take_left' (length_leBytes 4 _)
  have hother : other.toNat ≠ front.length + 4 + table.bytes.length := fun heq =>
    hne (by rw [hstays, hword, heq])
  have hread := read_eq_metadataOffset htable (Nat.lt_of_lt_of_le other.toNat_lt (by decide)) front
    (more ++ behind) hother
  have hfront : artifact.take front.length = front := by
    rw [hartifact, List.append_assoc, List.append_assoc, List.take_left]
  have hrest : artifact.drop (front.length + 4) = table.bytes ++ more := by
    rw [← List.drop_drop, hback]
    exact List.drop_left' (length_leBytes 4 _)
  rw [hfront, hrest, hword, ← hread]
  simp only [List.append_assoc]

-- Wherever the stream stands, a table that can be put there is put behind a word that is the
-- position of its end. A program that was written there is refused with any other word, whatever is
-- behind it.
theorem sealed_and_checked :
    (∀ table session, (∃ word after, Returns (writeMetadata table) session word after) ↔
      Sealable table session) ∧
    (∀ table session word after, Returns (writeMetadata table) session word after →
      Seals table session word after) ∧
    ∀ s p session last artifact, Returns (writeTo s p) session () last →
      last.finish = .ok artifact →
      ∃ word first, Returns (writeMetadata p.functions) session word first ∧
        ∀ (other : UInt32) (behind : Bytes),
          leBytes 4 other.toNat ≠ (artifact.drop session.sink.position).take 4 →
          read (artifact.take session.sink.position ++ leBytes 4 other.toNat ++
              artifact.drop (session.sink.position + 4) ++ behind) session.sink.position =
            .error (.metadataOffset other.toNat first.sink.position) := by
  refine ⟨fun _ _ => exists_writeMetadata_iff, fun _ _ _ _ => seals_of_writeMetadata,
    fun s p session last artifact hwrites hfinish => ?_⟩
  obtain ⟨word, first, hmetadata, more, hmore⟩ := exists_writeMetadata_of_writeTo hwrites
  have hseals := seals_of_writeMetadata hmetadata
  have hsealable := exists_writeMetadata_iff.mp ⟨word, first, hmetadata⟩
  obtain ⟨functions, htable⟩ := hsealable.exists_carries
  have hartifact : artifact = session.sink.bytes.toList ++ leBytes 4 word.toNat ++
      (SymbolTable.emission p.functions.byId).bytes ++ more := by
    rw [finish_eq_ok hfinish, ← hmore, hseals.toList_eq]
  refine ⟨word, first, hmetadata, fun other behind hne => ?_⟩
  rw [hseals.position_eq]
  exact read_replaced htable hseals.toNat_eq hartifact hne behind

-- A program with one function and one literal.
def smallProgram : Program Value :=
  { functions := .ofList [("main", ⟨3, ["io"]⟩)], literals := [.int 7] }

-- A stream that is written over from its third byte on.
def midway : Serializer := { sink := { bytes := #[9, 9], rest := List.replicate 62 255 } }

def midwayArtifact : Bytes :=
  [9, 9, 46, 0, 0, 0, 1, 0, 0, 0, 0, 0, 0, 0, 3, 0, 4, 0, 0, 0, 0, 0, 0, 0, 109, 97, 105, 110, 1, 0,
    0, 0, 0, 0, 0, 0, 2, 0, 0, 0, 0, 0, 0, 0, 105, 111, 0, 0, 1, 0, 2, 0, 0, 0, 7, 0, 0, 0, 0, 0,
    0, 0]

-- There the table ends at 46. With 47 in the place of this word the program is refused.
theorem sealed_and_checked_midway :
    ∃ first last, Sealable smallProgram.functions midway ∧
      Returns (writeMetadata smallProgram.functions) midway 46 first ∧
      Seals smallProgram.functions midway 46 first ∧
      Returns (writeTo .empty smallProgram) midway () last ∧ last.finish = .ok midwayArtifact ∧
      read ([9, 9] ++ leBytes 4 47 ++ midwayArtifact.drop 6 ++ [255, 255]) 2 =
        .error (.metadataOffset 47 46) := by
  have hfirst : ((writeMetadata smallProgram.functions).run midway).1 = .ok 46 := by decide +kernel
  have hlast : ((writeTo .empty smallProgram).run midway).1 = .ok () := by decide +kernel
  have hfinish : ((writeTo .empty smallProgram).run midway).2.finish = .ok midwayArtifact := by
    decide +kernel
  have hwrites : Returns (writeTo .empty smallProgram) midway () _ := Prod.ext hlast rfl
  obtain ⟨first, hmetadata⟩ : ∃ first,
      Returns (writeMetadata smallProgram.functions) midway 46 first := ⟨_, Prod.ext hfirst rfl⟩
  obtain ⟨hsucceeds, hseals, hchecked⟩ := sealed_and_checked
  have hsealable := (hsucceeds _ _).mp ⟨46, first, hmetadata⟩
  have hsealed := hseals _ _ _ _ hmetadata
  obtain ⟨word, again, hagain, hread⟩ := hchecked _ _ _ _ _ hwrites hfinish
  cases hagain.symm.trans hmetadata
  have hother := hread 47 [255, 255] (by decide)
  rw [hsealed.position_eq] at hother
  exact ⟨first, _, hsealable, hmetadata, hsealed, hwrites, hfinish, hother⟩

end Program

end Conductor
