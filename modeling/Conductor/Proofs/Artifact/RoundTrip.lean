import Conductor.Artifact.Program
import Conductor.Proofs.Archive.RoundTrip
import Conductor.Proofs.Artifact.Session
import Conductor.Proofs.Artifact.SymbolTable
import Conductor.Proofs.Instruction.Stream
import Conductor.Proofs.Task

namespace Conductor

open Archive

namespace Serializer

variable {session : Serializer} {phase next : Phase} {bytes : Bytes} {emission : Emission}

-- A sound session on a stream that takes everything, with what is on the stream.
structure Holds (session : Serializer) (phase : Phase) (bytes : Bytes) : Prop where
  poisoned : session.poisoned = false
  phase : session.phase = phase
  unlimited : session.sink.limit = none
  bytes : session.sink.bytes.toList = bytes

theorem Holds.takes (h : Holds session phase bytes) (more : Bytes) : session.sink.Takes more := by
  intro limit hlimit
  rw [h.unlimited] at hlimit
  cases hlimit

theorem Holds.position_eq (h : Holds session phase bytes) :
    session.sink.position = bytes.length := by
  rw [Sink.position_eq, h.bytes]

theorem Holds.delivers (h : Holds session phase bytes) (hfault : emission.fault = none) :
    Delivers emission session (session.grown emission.bytes) :=
  ⟨hfault, h.takes emission.bytes, rfl⟩

theorem Holds.grown (h : Holds session phase bytes) (more : Bytes) :
    Holds (session.grown more) phase (bytes ++ more) := by
  refine ⟨h.poisoned, h.phase, h.unlimited, ?_⟩
  rw [← h.bytes]
  exact Sink.toList_grown ..

theorem Holds.entered (h : Holds session phase bytes) (next : Phase) :
    Holds { session with phase := next } next bytes := ⟨h.poisoned, rfl, h.unlimited, h.bytes⟩

theorem exists_writeMetadata {table : SymbolTable} (h : Holds session .metadata [])
    (hids : (table.toList.map fun function => function.2.id).Nodup)
    (hfault : (SymbolTable.emission table.byId).fault = none)
    (hend : 4 + (SymbolTable.emission table.byId).bytes.length < UInt32.size) :
    ∃ word after, Returns (writeMetadata table) session word after ∧
      Holds after .header (leBytes 4 (4 + (SymbolTable.emission table.byId).bytes.length) ++
        (SymbolTable.emission table.byId).bytes) := by
  have hposition : session.metadataEnd (SymbolTable.emission table.byId) =
      4 + (SymbolTable.emission table.byId).bytes.length := by
    rw [metadataEnd, h.position_eq, List.length_nil, Nat.zero_add]
  have hfits : 4 + (SymbolTable.emission table.byId).bytes.length ≤ Counted.metadataBytes.limit :=
    Nat.le_sub_one_of_lt hend
  rw [← hposition] at hfits ⊢
  have hunharmed : (Emission.number 4 (session.metadataEnd (SymbolTable.emission table.byId)) ++
      SymbolTable.emission table.byId).fault = none := by
    rw [Emission.append_of_unharmed _ rfl, hfault]
  refine ⟨_, _, returns_writeMetadata_iff.mpr
    ⟨h.poisoned, h.phase, hids, hfits, rfl, _, h.delivers hunharmed, rfl⟩, ?_⟩
  rw [Emission.append_of_unharmed _ rfl]
  exact (h.grown _).entered .header

theorem exists_writeHeader {s : Store} {tasks : List (TaskRecord Value)}
    (h : Holds session .header bytes) (hcount : tasks.length < UInt16.size)
    (hfault : (Emission.counted (TaskRecord.emission s.emission) tasks).fault = none) :
    ∃ after, Returns (writeHeader s tasks) session () after ∧
      Holds after .literals
        (bytes ++ (Emission.counted (TaskRecord.emission s.emission) tasks).bytes) :=
  ⟨_, returns_writeHeader_iff.mpr
    ⟨h.poisoned, h.phase, Nat.le_sub_one_of_lt hcount, _, h.delivers hfault, rfl⟩,
    (h.grown _).entered .literals⟩

theorem exists_writeLiterals {s : Store} {literals : List Value}
    (h : Holds session .literals bytes) (hvoid : ∀ v ∈ literals, ¬v.isVoid)
    (hcount : literals.length < UInt16.size)
    (hfault : (Emission.counted s.emission literals).fault = none) :
    ∃ after, Returns (writeLiterals s literals) session () after ∧
      Holds after .code (bytes ++ (Emission.counted s.emission literals).bytes) :=
  ⟨_, returns_writeLiterals_iff.mpr
    ⟨h.poisoned, h.phase, hvoid, Nat.le_sub_one_of_lt hcount, _, h.delivers hfault, rfl⟩,
    (h.grown _).entered .code⟩

theorem exists_writeCode (code : List Instruction) (h : Holds session .code bytes) :
    ∃ after, Returns (writeCode code) session () after ∧
      Holds after .code (bytes ++ code.flatMap Instruction.encode) := by
  induction code generalizing session bytes with
  | nil =>
    exact ⟨session, returns_pure_iff.mpr ⟨rfl, rfl⟩, by rwa [List.flatMap_nil, List.append_nil]⟩
  | cons i code ih =>
    obtain ⟨after, hrest, hafter⟩ := ih (h.grown i.encode)
    refine ⟨after, returns_bind_iff.mpr ⟨(), _, returns_writeInstruction_iff.mpr
      ⟨h.poisoned, h.phase, h.delivers rfl⟩, hrest⟩, ?_⟩
    rwa [List.flatMap_cons, ← List.append_assoc]

end Serializer

namespace Program

open Serializer

-- The bytes of a program when nothing in it is without a form.
def sections (s : Store) (p : Program Value) : Bytes :=
  leBytes 4 (4 + (SymbolTable.emission p.functions.byId).bytes.length) ++
    (SymbolTable.emission p.functions.byId).bytes ++
    (Emission.counted (TaskRecord.emission s.emission) p.tasks).bytes ++
    (Emission.counted s.emission p.literals).bytes ++
    (p.code.map Prod.snd).flatMap Instruction.encode

theorem write_eq_sections {s : Store} {p : Program Value}
    (hids : (p.functions.toList.map fun function => function.2.id).Nodup)
    (htable : (SymbolTable.emission p.functions.byId).fault = none)
    (hend : 4 + (SymbolTable.emission p.functions.byId).bytes.length < UInt32.size)
    (hheader : (Emission.counted (TaskRecord.emission s.emission) p.tasks).fault = none)
    (htasks : p.tasks.length < UInt16.size)
    (hpool : (Emission.counted s.emission p.literals).fault = none)
    (hliterals : p.literals.length < UInt16.size) (hvoid : ∀ v ∈ p.literals, ¬v.isVoid) :
    p.write s = .ok (p.sections s) := by
  have hempty : Holds { sink := { bytes := #[] } } .metadata [] := ⟨rfl, rfl, rfl, rfl⟩
  obtain ⟨word, first, hmetadata, hfirst⟩ := exists_writeMetadata hempty hids htable hend
  obtain ⟨second, hheader, hsecond⟩ := exists_writeHeader hfirst htasks hheader
  obtain ⟨third, hpool, hthird⟩ := exists_writeLiterals hsecond hvoid hliterals hpool
  obtain ⟨last, hcode, hlast⟩ := exists_writeCode (p.code.map Prod.snd) hthird
  have hrun : Returns (writeTo s p) { sink := { bytes := #[] } } () last :=
    returns_bind_iff.mpr ⟨word, first, hmetadata, returns_bind_iff.mpr ⟨(), second, hheader,
      returns_bind_iff.mpr ⟨(), third, hpool, hcode⟩⟩⟩
  unfold Returns at hrun
  rw [write, hrun]
  change last.finish = _
  rw [finish, hlast.poisoned, if_neg Bool.false_ne_true, if_neg (not_not_intro hlast.phase),
    hlast.bytes]
  rfl

section Reading

variable {α β : Type}

theorem read_bind {ε : Type} {read : StateT Bytes (Except ε) α}
    {next : α → StateT Bytes (Except ε) β} {bytes rest : Bytes} {a : α}
    (h : read bytes = .ok (a, rest)) : (read >>= next) bytes = next a rest := by
  change (read bytes >>= fun result => next result.1 result.2) = _
  rw [h]
  rfl

theorem read_bind_of_error {ε : Type} {read : StateT Bytes (Except ε) α}
    {next : α → StateT Bytes (Except ε) β} {bytes : Bytes} {error : ε}
    (h : read bytes = .error error) : (read >>= next) bytes = .error error := by
  change (read bytes >>= fun result => next result.1 result.2) = _
  rw [h]
  rfl

theorem number_leBytes {width n : Nat} (h : n < byteCapacity width) (rest : Bytes) :
    number width (leBytes width n ++ rest) = .ok (n, rest) := by
  rw [number, Reads.number h]

theorem archived_append {read : Archive.Reader α} {bytes : Bytes} {a : α} (h : Reads read bytes a)
    (rest : Bytes) : archived read (bytes ++ rest) = .ok (a, rest) := by
  rw [archived, h]

-- Behind sections that each read back it is up to the code whether the artifact does.
theorem read_append {table header pool : Emission} {taskCount literalCount : Nat}
    {functions : SymbolTable} {tasks : List (TaskRecord Archived)} {literals : List Archived}
    (code : Bytes) (hend : 4 + table.bytes.length < UInt32.size)
    (htasks : taskCount < UInt16.size) (hliterals : literalCount < UInt16.size)
    (htable : Carries table SymbolTable.read functions)
    (hheader : Carries header
      (Archive.Reader.times (TaskRecord.read Archived.decode) taskCount) tasks)
    (hpool : Carries pool (Archive.Reader.times Archived.decode literalCount) literals) :
    read (leBytes 4 (4 + table.bytes.length) ++ table.bytes ++
        (leBytes 2 taskCount ++ header.bytes) ++ (leBytes 2 literalCount ++ pool.bytes) ++ code) 0 =
      (instructions code).map fun result =>
        { functions, tasks, literals, code := result.1 } := by
  rw [read, List.drop_zero]
  simp only [List.append_assoc]
  rw [reader, read_bind (number_leBytes hend _), read_bind (archived_append htable.reads _)]
  generalize hrest : leBytes 2 taskCount ++ _ = rest
  have hget : (get : Reader Bytes) rest = .ok (rest, rest) := rfl
  -- What has been read is the leading word and the table, so the table ends where the word says.
  have hactual :
      (leBytes 4 (4 + table.bytes.length) ++ (table.bytes ++ rest)).length - rest.length =
      4 + table.bytes.length := by
    rw [List.length_append, List.length_append, length_leBytes]
    omega
  rw [read_bind hget, hactual, if_neg (not_not_intro rfl), ← hrest]
  beta_reduce
  rw [read_bind (number_leBytes htasks _), read_bind (archived_append hheader.reads _),
    read_bind (number_leBytes hliterals _), read_bind (archived_append hpool.reads _)]
  cases hcode : instructions code with
  | ok result =>
    rw [read_bind hcode]
    rfl
  | error error =>
    rw [read_bind_of_error hcode]
    rfl

-- Sections that each read back make up an artifact that does.
theorem read_parts {table header pool : Emission} {taskCount literalCount : Nat}
    {functions : SymbolTable} {tasks : List (TaskRecord Archived)} {literals : List Archived}
    (code : List Instruction) (hend : 4 + table.bytes.length < UInt32.size)
    (htasks : taskCount < UInt16.size) (hliterals : literalCount < UInt16.size)
    (htable : Carries table SymbolTable.read functions)
    (hheader : Carries header
      (Archive.Reader.times (TaskRecord.read Archived.decode) taskCount) tasks)
    (hpool : Carries pool (Archive.Reader.times Archived.decode literalCount) literals) :
    read (leBytes 4 (4 + table.bytes.length) ++ table.bytes ++
        (leBytes 2 taskCount ++ header.bytes) ++ (leBytes 2 literalCount ++ pool.bytes) ++
        code.flatMap Instruction.encode) 0 =
      .ok { functions, tasks, literals, code := place 0 code } := by
  rw [read_append _ hend htasks hliterals htable hheader hpool, instructions,
    Decoder.instructions_flatMap_encode]
  rfl

theorem read_sections {s : Store} {p : Program Value} {functions : SymbolTable}
    {tasks : List (TaskRecord Archived)} {literals : List Archived}
    (hend : 4 + (SymbolTable.emission p.functions.byId).bytes.length < UInt32.size)
    (htasks : p.tasks.length < UInt16.size) (hliterals : p.literals.length < UInt16.size)
    (htable : Carries (SymbolTable.emission p.functions.byId) SymbolTable.read functions)
    (hheader : Carries (.concat (p.tasks.map (TaskRecord.emission s.emission)))
      (Archive.Reader.times (TaskRecord.read Archived.decode) p.tasks.length) tasks)
    (hpool : Carries (.concat (p.literals.map s.emission))
      (Archive.Reader.times Archived.decode p.literals.length) literals) :
    read (p.sections s) 0 =
      .ok { functions, tasks, literals, code := place 0 (p.code.map Prod.snd) } := by
  rw [sections, Emission.counted_eq, Emission.counted_eq]
  exact read_parts (p.code.map Prod.snd) hend htasks hliterals htable hheader hpool

end Reading

-- The values of a program: its literals and the initial values of its devices.
def values {α : Type} (p : Program α) : List α :=
  p.literals ++ p.tasks.flatMap fun t => t.devices.map DeviceBinding.initial

-- A program that an artifact can hold. That a machine word can measure its texts and lists is what
-- memory promises; the rest is up to the program.
structure Writable (s : Store) (p : Program Value) : Prop where
  ids : (p.functions.toList.map fun function => function.2.id).Nodup
  metadata : 4 + (SymbolTable.emission p.functions.byId).bytes.length < UInt32.size
  tasks : p.tasks.length < UInt16.size
  literals : p.literals.length < UInt16.size
  wordSized : ∀ t ∈ p.tasks, t.WordSized
  nonvoid : ∀ v ∈ p.literals, ¬v.isVoid
  values : ∀ v ∈ p.values, s.Resident v ∧ s.Archivable v

-- The same program in another store, but for the offsets: an instruction of `q` stands where those
-- before it end.
structure Same (s t : Store) (p q : Program Value) : Prop where
  functions : ∀ name, p.functions.get? name = q.functions.get? name
  tasks : List.Forall₂ (TaskRecord.Same (Store.Alike s t)) p.tasks q.tasks
  literals : List.Forall₂ (Store.Alike s t) p.literals q.literals
  instructions : p.code.map Prod.snd = q.code.map Prod.snd
  offsets : ∀ n (h : n < q.code.length),
    q.code[n].1 = Instruction.totalLength ((q.code.map Prod.snd).take n)

-- Building the values of a program that was read.
theorem extends_thaw {s t : Store} {p : Program Value} {q : Program Archived}
    (hfunctions : ∀ name, p.functions.get? name = q.functions.get? name)
    (htasks : List.Forall₂ (TaskRecord.Same s.Unfolds) p.tasks q.tasks)
    (hliterals : List.Forall₂ s.Unfolds p.literals q.literals)
    (hcode : q.code = place 0 (p.code.map Prod.snd)) :
    t.Extends (q.thaw t).2 ∧ Same s (q.thaw t).2 p (q.thaw t).1 := by
  have hlike := Store.persistent_alike s
  have htasksBuilt := Store.builds_traverse (TaskRecord.persistent_same hlike) <|
    htasks.imp fun u u' h => TaskRecord.builds_thaw h hlike fun v tree h => Store.builds_thaw h
  have hliteralsBuilt := Store.builds_traverse hlike <|
    hliterals.imp fun v tree h => Store.builds_thaw h
  obtain ⟨hgrow, htasksSame, hliteralsSame⟩ := htasksBuilt.followed
    (Store.persistent_forall₂ (TaskRecord.persistent_same hlike)) hliteralsBuilt t
  refine ⟨hgrow, hfunctions, htasksSame, hliteralsSame, ?_, fun n hn => ?_⟩
  · change p.code.map Prod.snd = q.code.map Prod.snd
    rw [hcode, map_snd_place]
  · change q.code[n].1 = Instruction.totalLength ((q.code.map Prod.snd).take n)
    have hget : q.code[n]? = some q.code[n] := List.getElem?_eq_getElem hn
    generalize q.code[n] = placed at hget ⊢
    rw [hcode, getElem?_place] at hget
    obtain ⟨i, _, rfl⟩ := Option.map_eq_some_iff.mp hget
    rw [hcode, map_snd_place, Nat.zero_add]

-- The program is written, its artifact is read, and what is built from it in any store is the
-- program again.
theorem exists_write_read {s : Store} {p : Program Value} (h : p.Writable s) :
    ∃ bytes q, p.write s = .ok bytes ∧ read bytes 0 = .ok q ∧
      ∀ t : Store, t.Extends (q.thaw t).2 ∧ Same s (q.thaw t).2 p (q.thaw t).1 := by
  have hperm := p.functions.perm_byId
  have hsize : (SymbolTable.emission p.functions.byId).bytes.length < byteCapacity 8 := by
    have hend := h.metadata
    have hcapacity : UInt32.size ≤ byteCapacity 8 := by decide
    omega
  obtain ⟨functions, htable, hfunctions⟩ := SymbolTable.exists_carries hsize
    ((hperm.map _).nodup_iff.mpr h.ids) ((hperm.map Prod.fst).nodup_iff.mpr p.functions.nodup)
  have hvalue (v : Value) (hmem : v ∈ p.values) :
      ∃ tree, Carries (s.emission v) Archived.decode tree ∧ s.Unfolds v tree :=
    Store.exists_carries (h.values v hmem).1 (h.values v hmem).2
  have hinitial {t : TaskRecord Value} {d : DeviceBinding Value} (ht : t ∈ p.tasks)
      (hd : d ∈ t.devices) : d.initial ∈ p.values :=
    List.mem_append_right _ (List.mem_flatMap.mpr ⟨t, ht, List.mem_map_of_mem hd⟩)
  obtain ⟨tasks, hheader, htasks⟩ := exists_forall₂_and p.tasks fun t ht =>
    TaskRecord.exists_carries (h.wordSized t ht) fun d hd => hvalue _ (hinitial ht hd)
  obtain ⟨literals, hpool, hliterals⟩ := exists_forall₂_and p.literals fun v hmem =>
    hvalue v (List.mem_append_left _ hmem)
  have hheader := Carries.times hheader
  have hpool := Carries.times hpool
  refine ⟨_, _, write_eq_sections h.ids htable.unharmed h.metadata hheader.unharmed h.tasks
    hpool.unharmed h.literals h.nonvoid,
    read_sections h.metadata h.tasks h.literals htable hheader hpool, fun t => ?_⟩
  exact extends_thaw (fun name => OrderedMap.get?_eq_of_perm (hfunctions.trans hperm).symm name)
    htasks hliterals rfl

-- A program whose device starts with a shared literal, and whose offsets are not those of its code.
def sharedProgram : Program Value where
  functions := .ofList [("main", ⟨1, ["blink"]⟩), ("blink", ⟨0, []⟩)]
  tasks := [{
    name := "main"
    inputs := [{
      name := "lamp"
      type := .device .light
      ports := .ofList [("out", "GPIO 7"), ("in", "GPIO 4")]
      initial := .container ⟨1⟩ }]
    triggers := [{ rule := ["lamp"], id := "on" }] }]
  literals := [.container ⟨1⟩, .float .nan]
  code := [(9, ⟨.push, [1], by decide⟩), (9, .plain .ret)]

theorem wordSized_sharedProgram : ∀ t ∈ sharedProgram.tasks, t.WordSized := by
  simp only [sharedProgram, List.forall_mem_singleton]
  refine ⟨by decide, by decide, List.forall_mem_nil _, by decide, ?_, by decide,
    List.forall_mem_nil _, by decide, by decide, ?_⟩
  · rw [List.forall_mem_singleton]
    exact ⟨by decide, by decide, by decide, by decide⟩
  · rw [List.forall_mem_singleton]
    exact ⟨by decide, by decide, by decide⟩

theorem values_sharedProgram : ∀ v ∈ sharedProgram.values,
    Store.sharedStore.Resident v ∧ Store.sharedStore.Archivable v := by
  have hmap := Store.resident_archivable_shared (v := .container ⟨1⟩) trivial
    fun a h => ⟨Store.sharedMap, by cases h; rfl⟩
  have hnan := Store.resident_archivable_shared (v := .float .nan) trivial fun a h => by cases h
  have hvalues : sharedProgram.values = [.container ⟨1⟩, .float .nan, .container ⟨1⟩] := by decide
  rw [hvalues, List.forall_mem_cons, List.forall_mem_cons, List.forall_mem_singleton]
  exact ⟨hmap, hnan, hmap⟩

theorem writable_sharedProgram : sharedProgram.Writable Store.sharedStore where
  ids := by decide
  metadata := by
    have hsorted : sharedProgram.functions.byId =
        [("blink", ⟨0, []⟩), ("main", ⟨1, ["blink"]⟩)] := by
      have hlist : sharedProgram.functions.toList =
          [("main", ⟨1, ["blink"]⟩), ("blink", ⟨0, []⟩)] := by decide
      rw [SymbolTable.byId, hlist]
      simp [List.mergeSort, List.MergeSort.Internal.splitInTwo]
    rw [hsorted]
    decide +kernel
  tasks := by decide
  literals := by decide
  wordSized := wordSized_sharedProgram
  nonvoid := by decide
  values := values_sharedProgram

theorem exists_write_read_sharedProgram :
    sharedProgram.Writable Store.sharedStore ∧
      ∃ bytes q, sharedProgram.write Store.sharedStore = .ok bytes ∧ read bytes 0 = .ok q ∧
        ∀ t : Store, t.Extends (q.thaw t).2 ∧
          Same Store.sharedStore (q.thaw t).2 sharedProgram (q.thaw t).1 :=
  ⟨writable_sharedProgram, exists_write_read writable_sharedProgram⟩

end Program

end Conductor
