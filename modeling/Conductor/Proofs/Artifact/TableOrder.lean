import Conductor.Proofs.Artifact.Refusal
import Conductor.Proofs.Text.Order

namespace Conductor

namespace SymbolTable

variable {table other : SymbolTable} {id : UInt16} {first second : String}

-- No two pairs of functions share a number.
def ClashesOnce (table : SymbolTable) : Prop :=
  ∀ id first second id' first' second', table.Clashes id first second →
    table.Clashes id' first' second' → id = id' ∧ first = first' ∧ second = second'

theorem Clashes.of_perm (h : table.Clashes id first second)
    (hperm : other.toList.Perm table.toList) : other.Clashes id first second := by
  obtain ⟨hnames, f, g, hf, hg, hfirst, hsecond⟩ := h
  exact ⟨hnames, f, g, hf, hg, hperm.mem_iff.mpr hfirst, hperm.mem_iff.mpr hsecond⟩

-- Names in their order are in the order of their bytes.
theorem Clashes.encode_lt (h : table.Clashes id first second) :
    Utf8.encode first < Utf8.encode second := Utf8.encode_lt_iff.mpr h.ordered

-- The order in which functions come decides neither their places nor, if only two of them clash,
-- the error.
theorem indexed_eq_of_perm (hperm : other.toList.Perm table.toList) (hone : table.ClashesOnce) :
    other.indexed = table.indexed := by
  obtain ⟨hok, hsorted⟩ | ⟨id, first, second, herror, hclash⟩ := table.indexed_cases
  · have hids := ((hperm.trans table.perm_byId.symm).map _).nodup_iff.mpr hsorted.nodup
    rw [hok, indexed_eq_ok_iff]
    exact ⟨hids, hsorted.eq_byId (table.perm_byId.trans hperm.symm)⟩
  · obtain ⟨hok, hsorted⟩ | ⟨id', first', second', herror', hclash'⟩ := other.indexed_cases
    · have hids := (other.perm_byId.map _).nodup_iff.mp hsorted.nodup
      exact absurd hids (hclash.of_perm hperm).not_nodup
    · obtain ⟨rfl, rfl, rfl⟩ := hone _ _ _ _ _ _ hclash (hclash'.of_perm hperm.symm)
      rw [herror, herror']

-- Functions without a clash have places, and with one they have none.
theorem indexed_of_not_clashes (h : ∀ id first second, ¬table.Clashes id first second) :
    table.indexed = .ok table.byId ∧ Ascending table.byId := by
  obtain hok | ⟨_, _, _, _, hclash⟩ := table.indexed_cases
  · exact hok
  · exact absurd hclash (h _ _ _)

theorem indexed_of_clashes (h : table.Clashes id first second) (hone : table.ClashesOnce) :
    table.indexed = .error (.duplicateFunctionId id first second) := by
  obtain ⟨hok, hsorted⟩ | ⟨_, _, _, herror, hclash⟩ := table.indexed_cases
  · exact absurd ((table.perm_byId.map _).nodup_iff.mp hsorted.nodup) h.not_nodup
  · obtain ⟨rfl, rfl, rfl⟩ := hone _ _ _ _ _ _ h hclash
    exact herror

end SymbolTable

namespace Serializer

open SymbolTable

variable {table other : SymbolTable} {session : Serializer}

-- All that writing a table looks at is the order of the numbers.
theorem writeMetadata_congr (h : other.indexed = table.indexed) :
    writeMetadata other = writeMetadata table := by
  rw [writeMetadata, writeMetadata, h]

-- The functions go to the stream in the order of their numbers, behind the position of their end.
-- If no word holds it, its place stays empty and the session fails.
def WritesById (table : SymbolTable) (session : Serializer) : Prop :=
  ∃ functions, functions.Perm table.toList ∧ Ascending functions ∧
    (4 + (emission functions).bytes.length ≤ Counted.metadataBytes.limit → ∃ after,
      Returns (writeMetadata table) session
          (UInt32.ofNat (4 + (emission functions).bytes.length)) after ∧
        Holds after .header
          (leBytes 4 (4 + (emission functions).bytes.length) ++ (emission functions).bytes)) ∧
    (Counted.metadataBytes.limit < 4 + (emission functions).bytes.length → ∃ after,
      Fails (writeMetadata table) session
          (.tooMany .metadataBytes (4 + (emission functions).bytes.length)) after ∧
        after.sink.bytes.toList = leBytes 4 0 ++ (emission functions).bytes)

theorem writesById_of_not_clashes (h : Holds session .metadata [])
    (hfree : ∀ id first second, ¬table.Clashes id first second) : WritesById table session := by
  obtain ⟨hindexed, hsorted⟩ := indexed_of_not_clashes hfree
  refine ⟨table.byId, table.perm_byId, hsorted, fun hend => ?_, fun hend => ?_⟩
  · have hids := (indexed_eq_ok_iff.mp hindexed).1
    obtain ⟨word, after, hreturns, hafter⟩ := exists_writeMetadata h hids
      (fault_emission table.byId) (Nat.lt_of_le_pred (by decide) hend)
    obtain ⟨_, _, _, _, rfl, _⟩ := returns_writeMetadata_iff.mp hreturns
    rw [metadataEnd, h.position_eq, List.length_nil, Nat.zero_add] at hreturns
    exact ⟨after, hreturns, hafter⟩
  · refine ⟨_, fails_writeMetadata_of_limit_lt h hindexed hend, ?_⟩
    exact ((h.grown (leBytes 4 0)).grown (emission table.byId).bytes).bytes

-- A table in another order is written as the table is. One clash is reported with the two names in
-- the order of their bytes, and without one the functions are written in the order of their
-- numbers.
theorem writeMetadata_of_perm (hperm : other.toList.Perm table.toList) (hone : table.ClashesOnce) :
    (∀ session, (writeMetadata other).run session = (writeMetadata table).run session) ∧
    ∀ session, Holds session .metadata [] →
      (∀ id first second, table.Clashes id first second →
        Utf8.encode first < Utf8.encode second ∧
          Fails (writeMetadata table) session (.duplicateFunctionId id first second)
            { session with poisoned := true }) ∧
      ((∀ id first second, ¬table.Clashes id first second) → WritesById table session) := by
  refine ⟨fun session => ?_, fun session h => ⟨fun id first second hclash => ?_, ?_⟩⟩
  · rw [writeMetadata_congr (indexed_eq_of_perm hperm hone)]
  · exact ⟨hclash.encode_lt, fails_writeMetadata_of_indexed h (indexed_of_clashes hclash hone)⟩
  · exact writesById_of_not_clashes h

-- Two of three functions share a number, and the table is listed from both ends.
def crossedTable : SymbolTable := .ofList [("run", ⟨3, []⟩), ("io", ⟨1, []⟩), ("main", ⟨3, ["io"]⟩)]

def reversedTable : SymbolTable :=
  .ofList [("main", ⟨3, ["io"]⟩), ("io", ⟨1, []⟩), ("run", ⟨3, []⟩)]

theorem clashes_crossedTable {id : UInt16} {first second : String}
    (h : crossedTable.Clashes id first second) : id = 3 ∧ first = "main" ∧ second = "run" := by
  have hpairs : ∀ a ∈ crossedTable.toList, ∀ b ∈ crossedTable.toList, a.1 < b.1 →
      a.2.id = b.2.id → a.2.id = 3 ∧ a.1 = "main" ∧ b.1 = "run" := by decide
  obtain ⟨hnames, f, g, rfl, hg, hfirst, hsecond⟩ := h
  exact hpairs _ hfirst _ hsecond hnames hg.symm

theorem writeMetadata_of_perm_crossed :
    reversedTable.toList.Perm crossedTable.toList ∧ crossedTable.ClashesOnce ∧
      Fails (writeMetadata reversedTable) (fresh none) (.duplicateFunctionId 3 "main" "run")
        { fresh none with poisoned := true } := by
  have hperm : reversedTable.toList.Perm crossedTable.toList := by decide
  have hone : crossedTable.ClashesOnce := by
    intro id first second id' first' second' h h'
    obtain ⟨rfl, rfl, rfl⟩ := clashes_crossedTable h
    obtain ⟨rfl, rfl, rfl⟩ := clashes_crossedTable h'
    exact ⟨rfl, rfl, rfl⟩
  have hclash : crossedTable.Clashes 3 "main" "run" :=
    ⟨by decide, ⟨3, ["io"]⟩, ⟨3, []⟩, rfl, rfl, by decide, by decide⟩
  obtain ⟨hsame, hends⟩ := writeMetadata_of_perm hperm hone
  refine ⟨hperm, hone, ?_⟩
  rw [Fails, hsame]
  exact ((hends (fresh none) ⟨rfl, rfl, rfl, rfl⟩).1 _ _ _ hclash).2

end Serializer

end Conductor
