import Conductor.Proofs.Archive.Thawing
import Conductor.Proofs.Artifact.RoundTrip

namespace Conductor

open Archive

namespace SymbolTable

theorem exists_carries_byId {table : SymbolTable}
    (hids : (table.toList.map fun function => function.2.id).Nodup)
    (hend : 4 + (emission table.byId).bytes.length < UInt32.size) :
    ∃ functions, Carries (emission table.byId) read functions ∧
      ∀ name, table.get? name = functions.get? name := by
  have hperm := table.perm_byId
  have hsize : (emission table.byId).bytes.length < byteCapacity 8 := by
    have hcapacity : UInt32.size ≤ byteCapacity 8 := by decide
    omega
  obtain ⟨functions, hcarries, hfunctions⟩ := exists_carries hsize
    ((hperm.map _).nodup_iff.mpr hids) ((hperm.map Prod.fst).nodup_iff.mpr table.nodup)
  exact ⟨functions, hcarries, fun name =>
    OrderedMap.get?_eq_of_perm (hfunctions.trans hperm).symm name⟩

end SymbolTable

namespace Serializer

variable {session after : Serializer} {phase : Phase} {bytes : Bytes} {emission : Emission}

theorem Holds.of_delivers (h : Holds session phase bytes)
    (hdelivers : Delivers emission session after) :
    Holds after phase (bytes ++ emission.bytes) := by
  rw [hdelivers.grows]
  exact h.grown _

theorem fails_writeLiterals_of_void {s : Store} {literals : List Value} {index : Nat}
    (h : Holds session .literals bytes) (hvoid : literals.findIdx? Value.isVoid = some index) :
    Fails (writeLiterals s literals) session (.unrepresentable index .void)
      { session with poisoned := true } := by
  unfold Fails
  rw [writeLiterals, run_guarded h.poisoned h.phase, hvoid]
  rfl

theorem fails_writeLiterals_of_limit_lt {s : Store} {literals : List Value}
    (h : Holds session .literals bytes) (hvoid : ∀ v ∈ literals, v.isVoid = false)
    (hcount : Counted.literals.limit < literals.length) :
    Fails (writeLiterals s literals) session (.tooMany .literals literals.length)
      { session with poisoned := true } := by
  have hnone : literals.findIdx? Value.isVoid = none := List.findIdx?_eq_none_iff.mpr hvoid
  unfold Fails
  rw [writeLiterals, run_guarded h.poisoned h.phase, hnone]
  simp only [putCount, if_pos hcount]
  rfl

theorem Holds.finish_eq (h : Holds session .code bytes) : session.finish = .ok bytes := by
  rw [finish, h.poisoned, if_neg Bool.false_ne_true, if_neg (not_not_intro h.phase), h.bytes]

end Serializer

section Values

variable {s : Store}

theorem exists_carries_tasks {tasks : List (TaskRecord Value)} (hsized : ∀ t ∈ tasks, t.WordSized)
    (hinitial : ∀ t ∈ tasks, ∀ d ∈ t.devices, s.Storable d.initial) :
    ∃ records, Carries (.concat (tasks.map (TaskRecord.emission s.emission)))
        (Archive.Reader.times (TaskRecord.read Archived.decode) tasks.length) records ∧
      List.Forall₂ (TaskRecord.Same s.Unfolds) tasks records := by
  obtain ⟨records, hcarries, hsame⟩ := exists_forall₂_and tasks fun t ht =>
    TaskRecord.exists_carries (hsized t ht) fun d hd =>
      Store.exists_carries (hinitial t ht d hd).resident (hinitial t ht d hd).archivable
  exact ⟨records, .times hcarries, hsame⟩

theorem exists_carries_literals {literals : List Value} (h : ∀ v ∈ literals, s.Storable v) :
    ∃ trees, Carries (.concat (literals.map s.emission))
        (Archive.Reader.times Archived.decode literals.length) trees ∧
      List.Forall₂ s.Unfolds literals trees := by
  obtain ⟨trees, hcarries, hunfolds⟩ := exists_forall₂_and literals fun v hmem =>
    Store.exists_carries (h v hmem).resident (h v hmem).archivable
  exact ⟨trees, .times hcarries, hunfolds⟩

theorem unharmed_counted {α : Type} {emit : α → Emission} {items : List α}
    (h : (Emission.concat (items.map emit)).fault = none) :
    (Emission.counted emit items).fault = none := by
  rw [Emission.counted_eq]
  exact h

end Values

namespace Serializer

-- A session that has written its header, what is on the stream, and what let it get there.
theorem holds_of_writeHeader {s : Store} {table : SymbolTable} {tasks : List (TaskRecord Value)}
    {word : UInt32} {first session : Serializer}
    (hmetadata : Returns (writeMetadata table) (fresh none) word first)
    (hheader : Returns (writeHeader s tasks) first () session) :
    (table.toList.map fun function => function.2.id).Nodup ∧
      4 + (SymbolTable.emission table.byId).bytes.length < UInt32.size ∧
      tasks.length < UInt16.size ∧
      Holds session .literals
        (leBytes 4 (4 + (SymbolTable.emission table.byId).bytes.length) ++
          (SymbolTable.emission table.byId).bytes ++
          (Emission.counted (TaskRecord.emission s.emission) tasks).bytes) := by
  obtain ⟨_, _, hids, hend, _, middle, htable, rfl⟩ := returns_writeMetadata_iff.mp hmetadata
  obtain ⟨_, _, hcount, last, hrecords, rfl⟩ := returns_writeHeader_iff.mp hheader
  have hposition : (fresh none).metadataEnd (SymbolTable.emission table.byId) =
      4 + (SymbolTable.emission table.byId).bytes.length := rfl
  rw [hposition] at hend htable
  have hempty : Holds (fresh none) .metadata [] := ⟨rfl, rfl, rfl, rfl⟩
  have hafter := ((hempty.of_delivers htable).entered .header).of_delivers hrecords
  rw [Emission.append_of_unharmed _ rfl] at hafter
  exact ⟨hids, Nat.lt_of_le_pred (by decide) hend, Nat.lt_of_le_pred (by decide) hcount,
    hafter.entered .literals⟩

-- The sections before the literals, in a session of their own.
theorem exists_writeHeader_of_storable {s : Store} {table : SymbolTable}
    {tasks : List (TaskRecord Value)}
    (hids : (table.toList.map fun function => function.2.id).Nodup)
    (hend : 4 + (SymbolTable.emission table.byId).bytes.length < UInt32.size)
    (hcount : tasks.length < UInt16.size) (hsized : ∀ t ∈ tasks, t.WordSized)
    (hinitial : ∀ t ∈ tasks, ∀ d ∈ t.devices, s.Storable d.initial) :
    ∃ word first session, Returns (writeMetadata table) (fresh none) word first ∧
      Returns (writeHeader s tasks) first () session ∧
      Holds session .literals
        (leBytes 4 (4 + (SymbolTable.emission table.byId).bytes.length) ++
          (SymbolTable.emission table.byId).bytes ++
          (Emission.counted (TaskRecord.emission s.emission) tasks).bytes) := by
  have hempty : Holds (fresh none) .metadata [] := ⟨rfl, rfl, rfl, rfl⟩
  obtain ⟨_, htable, _⟩ := SymbolTable.exists_carries_byId hids hend
  obtain ⟨_, hrecords, _⟩ := exists_carries_tasks hsized hinitial
  obtain ⟨word, first, hmetadata, hfirst⟩ := exists_writeMetadata hempty hids htable.unharmed hend
  obtain ⟨session, hheader, hsession⟩ :=
    exists_writeHeader hfirst hcount (unharmed_counted hrecords.unharmed)
  exact ⟨word, first, session, hmetadata, hheader, hsession⟩

end Serializer

end Conductor
