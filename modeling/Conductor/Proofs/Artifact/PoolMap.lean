import Conductor.Proofs.Artifact.OutOfTurn
import Conductor.Proofs.LiteralPool

namespace Conductor.LiteralPool

open Archive Serializer

variable {p : LiteralPool} {s : Store} {calls : List (Value × UInt16)}

theorem Interned.exists_writeLiterals (hpool : Interned p calls) (hsize : p.size < UInt16.size)
    (hvalues : ∀ call ∈ calls, s.Storable call.1) {session : Serializer} {bytes : Bytes}
    (h : Holds session .literals bytes) :
    ∃ after, Returns (writeLiterals s p.values.toList) session () after ∧
      Holds after .code (bytes ++ (Emission.counted s.emission p.values.toList).bytes) := by
  have hcalled (v : Value) (hmem : v ∈ p.values.toList) : ¬v.isVoid ∧ s.Storable v := by
    obtain ⟨hvoid, index, hcall⟩ := hpool.exists_call_of_mem v (Array.mem_toList_iff.mp hmem)
    exact ⟨Bool.eq_false_iff.mp hvoid, hvalues _ hcall⟩
  obtain ⟨_, hcarries, _⟩ := exists_carries_literals fun v hmem => (hcalled v hmem).2
  exact Serializer.exists_writeLiterals h (fun v hmem => (hcalled v hmem).1) hsize
    (unharmed_counted hcarries.unharmed)

-- In any session the map is written as the literals are, and that succeeds where it is their turn.
def WrittenAs (s : Store) (m : LiteralMap) (literals : List Value) : Prop :=
  ∀ session, (writeLiteralMap s m).run session = (writeLiterals s literals).run session ∧
    ∀ bytes, Holds session .literals bytes →
      ∃ after, Returns (writeLiteralMap s m) session () after ∧
        Holds after .code (bytes ++ (Emission.counted s.emission literals).bytes)

-- A pool without equal literals is written as a map whatever the orders in which that is built and
-- iterated. The map of any other pool, built in its order, has fewer literals than the pool, so
-- that its last index leaves a gap.
theorem Interned.writtenAs_or_gap (hpool : Interned p calls) (hsize : p.size < UInt16.size)
    (hvalues : ∀ call ∈ calls, s.Storable call.1) :
    (LiteralMap.Unequal p.values.toList → ∀ entries (m : LiteralMap),
      entries.Perm (LiteralMap.placed p.values.toList) →
      m.toList.Perm (LiteralMap.ofList entries).toList → WrittenAs s m p.values.toList) ∧
    (¬LiteralMap.Unequal p.values.toList → ∀ m : LiteralMap,
      m.toList.Perm (LiteralMap.ofList (LiteralMap.placed p.values.toList)).toList →
      m.toList.length < p.size ∧ ∃ expected found, ∀ session, Fails (writeLiteralMap s m) session
        (.literalIndexGap expected found) { session with poisoned := true }) := by
  have hlength : p.values.toList.length ≤ UInt16.size := hsize.le
  refine ⟨fun hunequal entries m hentries hm session => ?_, fun hequal m hm => ?_⟩
  · have hordered : m.ordered = .ok p.values.toList :=
      LiteralMap.ordered_of_perm hlength (LiteralMap.perm_placed_of_unequal hunequal hentries hm)
    have hsame : writeLiteralMap s m = writeLiterals s p.values.toList := by
      rw [writeLiteralMap, hordered]
    rw [hsame]
    exact ⟨rfl, fun bytes h => hpool.exists_writeLiterals hsize hvalues h⟩
  · obtain ⟨hdense, _⟩ | ⟨_, expected, found, hordered⟩ := m.ordered_cases
    · exact absurd hdense (LiteralMap.not_dense_of_equal hequal hlength hm)
    · exact ⟨LiteralMap.length_lt_of_equal hequal hm, expected, found,
        fun session => fails_writeLiteralMap_of_gap hordered⟩

-- Two literals of different form.
theorem exists_interned_pair {v w : Value} (hv : v.isVoid = false) (hw : w.isVoid = false)
    (hne : v ≠ w) : ∃ p, Interned p [(v, 0), (w, 1)] ∧ p.values = #[v, w] := by
  obtain ⟨first, hfirst, hfirstValues⟩ := exists_intern_of_notMem (p := .empty) (s := .empty) hv
    (Array.not_mem_empty v) (by decide)
  have hsingle : first.values = #[v] := hfirstValues
  have hsize : first.size = 1 := by rw [size, hsingle]; rfl
  obtain ⟨second, hsecond, hsecondValues⟩ := exists_intern_of_notMem (p := first) (s := .empty) hw
    (by rw [hsingle]; simpa using hne.symm) (by rw [hsize]; decide)
  rw [hsize] at hsecond
  refine ⟨second, (Interned.empty.call hfirst).call hsecond, ?_⟩
  rw [hsecondValues, hsingle]
  rfl

def nanPair : List (Value × UInt16) := [(.float .nan, 0), (.float (.neg .nan), 1)]

-- Two NaNs are never equal, and the map may give them the other way round.
theorem writtenAs_or_gap_nanPair :
    ∃ p, Interned p nanPair ∧ p.size < UInt16.size ∧
      (∀ call ∈ nanPair, Store.empty.Storable call.1) ∧ LiteralMap.Unequal p.values.toList ∧
      WrittenAs .empty ⟨nanPair.reverse⟩ p.values.toList := by
  obtain ⟨p, hpool, hp⟩ := exists_interned_pair (v := .float .nan) (w := .float (.neg .nan)) rfl rfl
    (by decide)
  have hsize : p.size < UInt16.size := by rw [size, hp]; decide
  have hvalues : ∀ call ∈ nanPair, Store.empty.Storable call.1 := by
    simp only [nanPair, List.forall_mem_cons]
    exact ⟨Store.storable_of_scalar trivial rfl, Store.storable_of_scalar trivial rfl,
      List.forall_mem_nil _⟩
  have hunequal : LiteralMap.Unequal p.values.toList := by
    rw [hp]
    exact List.pairwise_pair.mpr (by decide +kernel)
  have hplaced : LiteralMap.placed p.values.toList = nanPair := by rw [hp]; rfl
  have hkeys : (LiteralMap.ofList nanPair).toList = nanPair := by decide +kernel
  obtain ⟨hwritten, _⟩ := hpool.writtenAs_or_gap hsize hvalues
  refine ⟨p, hpool, hsize, hvalues, hunequal, hwritten hunequal nanPair _ ?_ ?_⟩
  · rw [hplaced]
  · rw [hkeys]
    exact List.reverse_perm nanPair

-- The one as an integer and as a double.
def onePair : List (Value × UInt16) := [(.int 1, 0), (.float ⟨0x3ff0000000000000⟩, 1)]

-- Each has its place in the pool, which is written, but they are one key of the map.
theorem not_written_onePair :
    ∃ p word first session, Interned p onePair ∧ p.size < UInt16.size ∧
      (∀ call ∈ onePair, Store.empty.Storable call.1) ∧
      Returns (writeMetadata .empty) (fresh none) word first ∧
      Returns (writeHeader .empty []) first () session ∧
      (∃ after, Returns (writeLiterals .empty p.values.toList) session () after) ∧
      Fails (writeLiteralMap .empty (.ofList (LiteralMap.placed p.values.toList))) session
        (.literalIndexGap 0 1) { session with poisoned := true } := by
  obtain ⟨p, hpool, hp⟩ := exists_interned_pair (v := .int 1) (w := .float ⟨0x3ff0000000000000⟩) rfl
    rfl (by decide)
  have hsize : p.size < UInt16.size := by rw [size, hp]; decide
  have hvalues : ∀ call ∈ onePair, Store.empty.Storable call.1 := by
    simp only [onePair, List.forall_mem_cons]
    exact ⟨Store.storable_of_scalar trivial rfl, Store.storable_of_scalar trivial rfl,
      List.forall_mem_nil _⟩
  have hids : ((.empty : SymbolTable).toList.map fun function => function.2.id).Nodup := .nil
  have hend : 4 + (SymbolTable.emission (SymbolTable.byId .empty)).bytes.length < UInt32.size := by
    rw [SymbolTable.byId_empty]
    decide
  obtain ⟨word, first, session, hmetadata, hheader, hsession⟩ :=
    exists_writeHeader_of_storable (s := .empty) hids hend (by decide)
      (List.forall_mem_nil TaskRecord.WordSized) (List.forall_mem_nil _)
  obtain ⟨after, hliterals, _⟩ := hpool.exists_writeLiterals hsize hvalues hsession
  have hordered : (LiteralMap.ofList (LiteralMap.placed p.values.toList)).ordered =
      .error (.literalIndexGap 0 1) := by
    rw [hp]
    decide +kernel
  exact ⟨p, word, first, session, hpool, hsize, hvalues, hmetadata, hheader, ⟨after, hliterals⟩,
    fails_writeLiteralMap_of_gap hordered⟩

end Conductor.LiteralPool
