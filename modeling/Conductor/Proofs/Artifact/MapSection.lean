import Conductor.Proofs.Archive.Types
import Conductor.Proofs.Artifact.Measured
import Conductor.Proofs.Artifact.OutOfTurn

namespace Conductor

open Archive Serializer

-- A header that was written is without a fault.
theorem Serializer.unharmed_of_writeHeader {s : Store} {tasks : List (TaskRecord Value)}
    {session after : Serializer} (h : Returns (writeHeader s tasks) session () after) :
    (Emission.concat (tasks.map (TaskRecord.emission s.emission))).fault = none := by
  obtain ⟨_, _, _, _, hdelivers, _⟩ := returns_writeHeader_iff.mp h
  have hfault := hdelivers.unharmed
  rwa [Emission.counted_eq] at hfault

namespace LiteralMap

variable {m : LiteralMap} {s : Store} {session : Serializer} {bytes : Bytes}

-- Literals that an artifact can hold.
structure Writable (s : Store) (m : LiteralMap) : Prop where
  count : m.toList.length < UInt16.size
  nonvoid : ∀ entry ∈ m.toList, entry.1.isVoid = false
  held : ∀ entry ∈ m.toList, s.Held entry.1
  freezable : ∀ entry ∈ m.toList, s.Freezable entry.1

theorem forall_byIndex {P : Value → Prop} (h : ∀ entry ∈ m.toList, P entry.1) :
    ∀ v ∈ m.byIndex.map Prod.fst, P v :=
  List.forall_mem_map.mpr fun entry hmem => h entry (m.perm_byIndex.mem_iff.mp hmem)

theorem length_map_byIndex (m : LiteralMap) :
    (m.byIndex.map Prod.fst).length = m.toList.length := by
  rw [List.length_map, length_byIndex]

namespace Writable

theorem of_storable (hcount : m.toList.length < UInt16.size)
    (hnonvoid : ∀ entry ∈ m.toList, entry.1.isVoid = false)
    (h : ∀ entry ∈ m.toList, s.Storable entry.1) : m.Writable s where
  count := hcount
  nonvoid := hnonvoid
  held := fun entry hmem a hway =>
    have ⟨c, hfind, _⟩ := (h entry hmem).resident.container a hway
    Store.lives_iff.mpr ⟨c, hfind⟩
  freezable := fun entry hmem => {
    acyclic := (h entry hmem).archivable.acyclic
    recordless := fun a cell d hway hfetch hobject => by
      rw [(h entry hmem).archivable.plain a cell hway hfetch] at hobject
      cases hobject }

theorem unharmed (h : m.Writable s) :
    (Emission.concat ((m.byIndex.map Prod.fst).map s.emission)).fault = none := by
  have hheld := forall_byIndex h.held
  have hfreezable := forall_byIndex h.freezable
  rw [Emission.fault_concat_map, List.findSome?_eq_none_iff]
  exact fun v hmem => Store.unharmed_of_freezable (hheld v hmem) (hfreezable v hmem)

theorem exists_writeLiteralMap (h : m.Writable s) (hdense : m.Dense)
    (hsession : Holds session .literals bytes) :
    ∃ after, Returns (writeLiteralMap s m) session () after ∧
      Holds after .code
        (bytes ++ (Emission.counted s.emission (m.byIndex.map Prod.fst)).bytes) := by
  have hcount : (m.byIndex.map Prod.fst).length < UInt16.size := m.length_map_byIndex ▸ h.count
  have hnonvoid : ∀ v ∈ m.byIndex.map Prod.fst, v.isVoid = false := forall_byIndex h.nonvoid
  rw [writeLiteralMap, hdense.ordered_of_perm (.refl _)]
  exact exists_writeLiterals hsession (fun v hmem => Bool.eq_false_iff.mp (hnonvoid v hmem)) hcount
    (unharmed_counted h.unharmed)

-- The literals in the order of their indices read back as their trees, in which all maps are plain.
theorem exists_carries (h : m.Writable s)
    (hlength : (Emission.concat ((m.byIndex.map Prod.fst).map s.emission)).bytes.length <
      byteCapacity 8) :
    ∃ trees, Carries (.concat ((m.byIndex.map Prod.fst).map s.emission))
        (Archive.Reader.times Archived.decode m.toList.length) trees ∧
      List.Forall₂ s.plain.Unfolds (m.byIndex.map Prod.fst) trees := by
  obtain ⟨trees, htrees, hfrozen⟩ :=
    Store.exists_carries_literals_of_measured ⟨h.unharmed, hlength⟩
  have hheld := forall_byIndex h.held
  refine ⟨trees, m.length_map_byIndex ▸ htrees, forall₂_imp_of_mem hfrozen ?_⟩
  exact fun v hmem tree _ hfreeze => Store.unfolds_plain_of_freezeWithin (hheld v hmem) hfreeze

-- A map of literals is written when its indices are those of a pool of its size. Then the order in
-- which it is iterated makes no difference, and what an index addresses in the artifact is like its
-- literal, only that a map of whatever object type reads as a plain map.
theorem written_iff_dense (h : m.Writable s) {t : Store} {table : SymbolTable}
    {tasks : List (TaskRecord Value)} {word : UInt32} {first : Serializer}
    (hmetadata : Returns (writeMetadata table) (fresh none) word first)
    (hheader : Returns (writeHeader t tasks) first () session) :
    ((∃ after, Returns (writeLiteralMap s m) session () after) ↔ m.Dense) ∧
    (m.Dense →
      (∀ other : LiteralMap, other.toList.Perm m.toList →
        (writeLiteralMap s other).run session = (writeLiteralMap s m).run session) ∧
      ∃ after, Returns (writeLiteralMap s m) session () after ∧
        ∀ code, ∃ last artifact, Returns (writeCode code) after () last ∧
          last.finish = .ok artifact ∧
          (artifact.length < byteCapacity 8 → ∃ q, Program.read artifact 0 = .ok q ∧
            q.literals.length = m.toList.length ∧
            ∀ u v index, (v, index) ∈ m.toList → ∃ w,
              (q.thaw u).1.literals[index.toNat]? = some w ∧
              Store.Alike s.plain (q.thaw u).2 v w ∧
              (s.Archivable v → Store.Alike s (q.thaw u).2 v w))) := by
  obtain ⟨hids, hend, hcount, hsession⟩ := holds_of_writeHeader hmetadata hheader
  refine ⟨⟨fun ⟨after, hreturns⟩ => ?_, fun hdense => ?_⟩,
    fun hdense => ⟨fun other hperm => ?_, ?_⟩⟩
  · obtain ⟨hdense, _⟩ | ⟨_, expected, found, hordered⟩ := m.ordered_cases
    · exact hdense
    · have hfails : Fails (writeLiteralMap s m) session (.literalIndexGap expected found) _ :=
        fails_writeLiteralMap_of_gap hordered
      cases hreturns.symm.trans hfails
  · obtain ⟨after, hreturns, _⟩ := h.exists_writeLiteralMap hdense hsession
    exact ⟨after, hreturns⟩
  · rw [writeLiteralMap, writeLiteralMap, hdense.ordered_of_perm hperm,
      hdense.ordered_of_perm (.refl _)]
  -- The section is written, and what it reads as is built behind the values of the tasks.
  obtain ⟨after, hreturns, hafter⟩ := h.exists_writeLiteralMap hdense hsession
  refine ⟨after, hreturns, fun code => ?_⟩
  obtain ⟨last, hcode, hlast⟩ := exists_writeCode code hafter
  refine ⟨last, _, hcode, hlast.finish_eq, fun hlength => ?_⟩
  rw [Emission.counted_eq, Emission.counted_eq, length_map_byIndex] at hlength ⊢
  simp only [List.length_append] at hlength
  obtain ⟨functions, htable, _⟩ := SymbolTable.exists_carries_byId hids hend
  have hmeasured : Emission.Measured (.concat (tasks.map (TaskRecord.emission t.emission))) :=
    ⟨unharmed_of_writeHeader hheader, by omega⟩
  obtain ⟨records, hrecords⟩ := Store.exists_carries_tasks_of_measured hmeasured
  obtain ⟨trees, htrees, hunfolds⟩ := h.exists_carries (by omega)
  have hread := Program.read_parts code hend hcount h.count htable hrecords htrees
  refine ⟨_, hread, ?_, fun u v index hmem => ?_⟩
  · rw [← m.length_map_byIndex, hunfolds.length_eq]
  · have hbuilt := Store.builds_traverse (Store.persistent_alike s.plain)
      (hunfolds.imp fun v tree h => Store.builds_thaw h) (u.traverse TaskRecord.thaw records).2
    obtain ⟨w, hw, halike⟩ := exists_getElem?_of_forall₂ hbuilt.2 (hdense.getElem?_byIndex hmem)
    exact ⟨w, hw, halike, halike.of_plain⟩

end Writable

-- Literals in another order than that of their indices.
def rotated : LiteralMap := ⟨[(.string "a", 2), (.float .nan, 0), (.bool true, 1)]⟩

def rotatedArtifact : Bytes :=
  [12, 0, 0, 0, 0, 0, 0, 0, 0, 0, 0, 0, 0, 0, 3, 0, 3, 0, 0, 0, 0, 0, 0, 0, 0, 0, 248, 127, 1, 0, 0,
    0, 1, 4, 0, 0, 0, 1, 0, 0, 0, 0, 0, 0, 0, 97]

theorem storable_rotated : ∀ entry ∈ rotated.toList, Store.empty.Storable entry.1 := by
  simp only [rotated, List.forall_mem_cons]
  exact ⟨Store.storable_of_scalar (by decide) rfl, Store.storable_of_scalar trivial rfl,
    Store.storable_of_scalar trivial rfl, List.forall_mem_nil _⟩

theorem writable_rotated : rotated.Writable .empty :=
  .of_storable (by decide) (by decide) storable_rotated

theorem ordered_rotated : rotated.ordered = .ok [.float .nan, .bool true, .string "a"] := by
  let sorted : LiteralMap := ⟨[(.float .nan, 0), (.bool true, 1), (.string "a", 2)]⟩
  have hdense : sorted.Dense := .refl _
  have hperm : rotated.toList.Perm sorted.toList := by decide
  rw [hdense.ordered_of_perm hperm, byIndex, List.mergeSort_of_pairwise (by decide)]
  rfl

-- The float comes first and the text last, in both orders of the map.
theorem written_iff_dense_rotated :
    ∃ word first session after q, rotated.Writable .empty ∧
      Returns (writeMetadata .empty) (fresh none) word first ∧
      Returns (writeHeader .empty []) first () session ∧ rotated.Dense ∧
      (writeLiteralMap .empty ⟨rotated.toList.reverse⟩).run session =
        (writeLiteralMap .empty rotated).run session ∧
      Returns (writeLiteralMap .empty rotated) session () after ∧
      after.finish = .ok rotatedArtifact ∧
      Program.read rotatedArtifact 0 = .ok q ∧ q.literals.length = 3 ∧
      ∀ u v index, (v, index) ∈ rotated.toList → ∃ w,
        (q.thaw u).1.literals[index.toNat]? = some w ∧ Store.Alike .empty (q.thaw u).2 v w := by
  have hids : ((.empty : SymbolTable).toList.map fun function => function.2.id).Nodup := .nil
  have hend : 4 + (SymbolTable.emission (SymbolTable.byId .empty)).bytes.length < UInt32.size := by
    rw [SymbolTable.byId_empty]
    decide
  obtain ⟨word, first, session, hmetadata, hheader, _⟩ :=
    exists_writeHeader_of_storable (s := .empty) hids hend (by decide)
      (List.forall_mem_nil TaskRecord.WordSized) (List.forall_mem_nil _)
  have hdense : rotated.Dense := by unfold Dense; decide
  obtain ⟨horder, after, hreturns, hcode⟩ :=
    (writable_rotated.written_iff_dense hmetadata hheader).2 hdense
  obtain ⟨last, artifact, hdone, hartifact, hread⟩ := hcode []
  obtain ⟨_, rfl⟩ := returns_pure_iff.mp hdone
  have hwrites : Returns (Program.writeTo .empty
      { literals := [.float .nan, .bool true, .string "a"] }) (fresh none) () after := by
    obtain ⟨literals, hliterals, hreturns⟩ := returns_writeLiteralMap_iff.mp hreturns
    cases ordered_rotated.symm.trans hliterals
    exact returns_bind_iff.mpr ⟨word, first, hmetadata, returns_bind_iff.mpr ⟨(), session, hheader,
      returns_bind_iff.mpr ⟨(), after, hreturns, hdone⟩⟩⟩
  have hwritten : Program.write .empty { literals := [.float .nan, .bool true, .string "a"] } =
      .ok rotatedArtifact := by decide +kernel
  have hfinish : after.finish = .ok rotatedArtifact := by
    rw [← hwritten, Program.write]
    unfold Returns at hwrites
    unfold fresh at hwrites
    rw [hwrites]
  cases hfinish.symm.trans hartifact
  obtain ⟨q, hq, hlength, hplaces⟩ := hread (by decide)
  refine ⟨word, first, session, after, q, writable_rotated, hmetadata, hheader, hdense,
    horder _ (List.reverse_perm _), hreturns, hfinish, hq, hlength, fun u v index hmem => ?_⟩
  obtain ⟨w, hw, _, halike⟩ := hplaces u v index hmem
  exact ⟨w, hw, halike (storable_rotated _ hmem).archivable⟩

end LiteralMap

end Conductor
