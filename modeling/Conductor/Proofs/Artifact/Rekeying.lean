import Conductor.Proofs.Artifact.Accepted

namespace Conductor

open Archive

namespace SymbolTable

variable {table : SymbolTable} {id : UInt16} {name : String} {f : Function}

theorem name?_eq_some_iff (hids : (table.toList.map fun function => function.2.id).Nodup) :
    table.name? id = some name ↔ ∃ f : Function, f.id = id ∧ table.get? name = some f := by
  simp only [OrderedMap.get?_eq_some_iff, name?, Option.map_eq_some_iff]
  constructor
  · rintro ⟨⟨_, f⟩, hfind, rfl⟩
    exact ⟨f, by simpa using List.find?_some hfind, List.mem_of_find?_eq_some hfind⟩
  · rintro ⟨f, rfl, hmem⟩
    have hsome : (table.toList.find? fun function => function.2.id == f.id).isSome :=
      List.find?_isSome.mpr ⟨_, hmem, beq_self_eq_true f.id⟩
    obtain ⟨found, hfind⟩ := Option.isSome_iff_exists.mp hsome
    have hid : found.2.id = f.id := by simpa using List.find?_some hfind
    cases List.inj_on_of_nodup_map hids (List.mem_of_find?_eq_some hfind) hmem hid
    exact ⟨_, hfind, rfl⟩

-- The numbers ascend, as they do in everything that is read.
abbrev Recorded.Ascending (m : Recorded) : Prop := m.toList.Pairwise fun a b => a.1 < b.1

-- No function with a larger number has the name.
def Recorded.Last (m : Recorded) (id : UInt16) (name : String) : Prop :=
  ∀ later dependencies, m.get? later = some (name, dependencies) → later ≤ id

variable {m : Recorded}

theorem ascending_sorted (m : Recorded) : Recorded.Ascending m.sorted := by
  have hle : m.sorted.toList.Pairwise fun a b => a.1 ≤ b.1 :=
    pairwise_mergeSort_word Prod.fst m.toList
  exact hle.imp₂ (fun _ _ => UInt16.lt_of_le_of_ne) (List.pairwise_map.mp m.sorted.nodup)

-- In descending order the first function with a name is the one with the largest number.
theorem lookup_byName_eq_some_iff {entries : List (UInt16 × String × List String)}
    (h : entries.Pairwise fun a b => b.1 < a.1) :
    (entries.map byName).lookup name = some f ↔
      (f.id, name, f.dependencies) ∈ entries ∧
        ∀ later dependencies, (later, name, dependencies) ∈ entries → later ≤ f.id := by
  induction entries with
  | nil => simp
  | cons entry rest ih =>
    obtain ⟨id, first, dependencies⟩ := entry
    obtain ⟨hlt, hrest⟩ := List.pairwise_cons.mp h
    rw [List.map_cons, byName, List.lookup_cons]
    by_cases hname : name = first
    · subst hname
      simp only [beq_self_eq_true, Option.some.injEq]
      constructor
      · rintro rfl
        refine ⟨List.mem_cons_self, fun later dependencies hmem => ?_⟩
        obtain heq | hmem := List.mem_cons.mp hmem
        · cases heq
          exact UInt16.le_refl _
        · exact UInt16.le_of_lt (hlt _ hmem)
      · rintro ⟨hmem, hlast⟩
        obtain heq | hmem := List.mem_cons.mp hmem
        · cases heq
          rfl
        · exact absurd (hlt _ hmem) (UInt16.not_lt.mpr (hlast _ _ List.mem_cons_self))
    · have hbeq : (name == first) = false := beq_false_of_ne hname
      simp only [hbeq, ih hrest, List.mem_cons, Prod.mk.injEq, hname, false_and, and_false,
        false_or]

-- A function is in the table if no other with its name follows it.
theorem get?_rekeyed_eq_some_iff (h : m.Ascending) :
    (rekeyed m).get? name = some f ↔
      m.get? f.id = some (name, f.dependencies) ∧ m.Last f.id name := by
  have hdown : m.toList.reverse.Pairwise fun a b => b.1 < a.1 := List.pairwise_reverse.mpr h
  rw [rekeyed, OrderedMap.get?_ofList, ← List.map_reverse, lookup_byName_eq_some_iff hdown]
  simp only [Recorded.Last, OrderedMap.get?_eq_some_iff, List.mem_reverse]

theorem recorded_of_read {bytes rest : Bytes} (h : read bytes = .ok (table, rest)) :
    ∃ m, recorded bytes = .ok (m, rest) ∧ m.Ascending ∧ table = rekeyed m := by
  rw [read_eq] at h
  obtain ⟨m, _, hm, ⟨⟩⟩ := exists_of_bind_eq_ok h
  obtain ⟨entries, _, _, hsorted⟩ := exists_of_bind_eq_ok hm
  cases hsorted
  exact ⟨_, hm, ascending_sorted (.ofList entries), rfl⟩

-- What becomes of recorded functions in a table.
structure Keeps (table : SymbolTable) (m : Recorded) : Prop where
  last : ∀ id name dependencies, m.get? id = some (name, dependencies) → m.Last id name →
    table.name? id = some name ∧ table.get? name = some { id, dependencies }
  others : ∀ id name dependencies, m.get? id = some (name, dependencies) → ¬m.Last id name →
    table.name? id = none
  only : ∀ name f, table.get? name = some f → m.get? f.id = some (name, f.dependencies)
  size : table.size = m.size ↔ (m.values.map Prod.fst).Nodup

theorem size_rekeyed_eq_iff : (rekeyed m).size = m.size ↔ (m.values.map Prod.fst).Nodup := by
  have hnames : (m.toList.map byName).map Prod.fst = m.values.map Prod.fst := by
    rw [OrderedMap.values, List.map_map, List.map_map]
    rfl
  rw [← hnames, ← OrderedMap.size_ofList_eq_iff, List.length_map]
  rfl

theorem keeps_rekeyed (h : m.Ascending) : Keeps (rekeyed m) m := by
  have hids := nodup_ids_rekeyed m
  refine ⟨fun id name dependencies hget hlast => ?_, fun id name dependencies hget hlast => ?_,
    fun name f hget => ((get?_rekeyed_eq_some_iff h).mp hget).1, size_rekeyed_eq_iff⟩
  · have hkept : (rekeyed m).get? name = some { id, dependencies } :=
      (get?_rekeyed_eq_some_iff h).mpr ⟨hget, hlast⟩
    exact ⟨(name?_eq_some_iff hids).mpr ⟨_, rfl, hkept⟩, hkept⟩
  · refine Option.eq_none_iff_forall_ne_some.mpr fun other hname => ?_
    obtain ⟨f, rfl, hother⟩ := (name?_eq_some_iff hids).mp hname
    obtain ⟨hrecorded, hotherLast⟩ := (get?_rekeyed_eq_some_iff h).mp hother
    cases hget.symm.trans hrecorded
    exact hlast hotherLast

end SymbolTable

namespace Program

-- Of the functions that an artifact records under one name the program has the last.
theorem keeps_of_read {bytes : Bytes} {position : Nat} {q : Program Archived}
    (h : read bytes position = .ok q) :
    ∃ m rest, SymbolTable.recorded (bytes.drop (position + 4)) = .ok (m, rest) ∧
      SymbolTable.Keeps q.functions m := by
  obtain ⟨last, hreader⟩ := exists_reader_of_read h
  obtain ⟨expected, table, afterTable, _, _, _, _, _, _, hword, htable, _⟩ :=
    sections_of_reader_eq_ok hreader
  obtain ⟨m, hm, hascending, hq⟩ := SymbolTable.recorded_of_read (eq_ok_of_archived htable)
  have hbytes : bytes.drop (position + 4) = table := by
    rw [← List.drop_drop, (number_eq_ok hword).2]
    exact List.drop_left' (length_leBytes 4 expected)
  rw [hbytes, hq]
  exact ⟨m, afterTable, hm, SymbolTable.keeps_rekeyed hascending⟩

-- Two functions with one name.
def twins : SymbolTable.Recorded := .ofList [(3, "main", ["io"]), (5, "main", [])]

def twinArtifact : Bytes :=
  [66, 0, 0, 0, 2, 0, 0, 0, 0, 0, 0, 0, 3, 0, 4, 0, 0, 0, 0, 0, 0, 0, 109, 97, 105, 110, 1, 0, 0, 0,
    0, 0, 0, 0, 2, 0, 0, 0, 0, 0, 0, 0, 105, 111, 5, 0, 4, 0, 0, 0, 0, 0, 0, 0, 109, 97, 105, 110,
    0, 0, 0, 0, 0, 0, 0, 0, 0, 0, 0, 0]

theorem exists_read_twins : ∃ q rest, read twinArtifact 0 = .ok q ∧
    SymbolTable.recorded (twinArtifact.drop 4) = .ok (twins, rest) ∧
    q.functions = SymbolTable.rekeyed twins := by
  let functions : List (String × Function) := [("main", ⟨3, ["io"]⟩), ("main", ⟨5, []⟩)]
  have hsize : (SymbolTable.emission functions).bytes.length = 62 := by decide
  have hsorted : twins.sorted = twins :=
    OrderedMap.ext_toList (List.mergeSort_of_pairwise (by decide))
  have hrecorded : Carries (SymbolTable.emission functions) SymbolTable.recorded twins :=
    hsorted ▸ SymbolTable.carries_recorded (hsize ▸ by decide)
  have htable : Carries (SymbolTable.emission functions) SymbolTable.read
      (SymbolTable.rekeyed twins) := SymbolTable.read_eq ▸ .last hrecorded (.pure _)
  have htasks : Carries (.concat [])
      (Archive.Reader.times (TaskRecord.read Archived.decode) 0) [] := .concat_nil []
  have hpool : Carries (.concat []) (Archive.Reader.times Archived.decode 0) [] := .concat_nil []
  have hread := read_parts [] (hsize ▸ by decide) (by decide) (by decide) htable htasks hpool
  have hbytes : leBytes 4 (4 + (SymbolTable.emission functions).bytes.length) ++
      (SymbolTable.emission functions).bytes ++ (leBytes 2 0 ++ (Emission.concat []).bytes) ++
      (leBytes 2 0 ++ (Emission.concat []).bytes) ++ ([] : List Instruction).flatMap
      Instruction.encode = twinArtifact := by decide
  have hback : (SymbolTable.emission functions).bytes ++ [0, 0, 0, 0] = twinArtifact.drop 4 := by
    decide
  rw [hbytes] at hread
  exact ⟨_, [0, 0, 0, 0], hread, hback ▸ hrecorded.reads [0, 0, 0, 0], rfl⟩

theorem keeps_of_read_twins : ∃ q rest, read twinArtifact 0 = .ok q ∧
    SymbolTable.recorded (twinArtifact.drop 4) = .ok (twins, rest) ∧
    SymbolTable.Keeps q.functions twins ∧ q.functions.name? 5 = some "main" := by
  obtain ⟨q, rest, hread, hrecorded, _⟩ := exists_read_twins
  obtain ⟨m, _, hm, hkeeps⟩ := keeps_of_read hread
  cases hm.symm.trans hrecorded
  have hlast : twins.Last 5 "main" := by
    intro later dependencies hget
    obtain heq | hmem := List.mem_cons.mp (OrderedMap.get?_eq_some_iff.mp hget)
    · cases heq
      decide
    · cases List.mem_singleton.mp hmem
      exact UInt16.le_refl 5
  exact ⟨q, rest, hread, hrecorded, hkeeps, (hkeeps.last 5 "main" [] rfl hlast).1⟩

-- Both functions are recorded, but the program has one function, and the number 3 has no name.
theorem not_keeps_twins : ∃ q rest, read twinArtifact 0 = .ok q ∧
    SymbolTable.recorded (twinArtifact.drop 4) = .ok (twins, rest) ∧
    twins.get? 3 = some ("main", ["io"]) ∧ q.functions.name? 3 = none ∧
    q.functions.get? "main" = some { id := 5, dependencies := [] } ∧
    twins.size = 2 ∧ q.functions.size = 1 := by
  obtain ⟨q, rest, hread, hrecorded, hfunctions⟩ := exists_read_twins
  refine ⟨q, rest, hread, hrecorded, rfl, ?_⟩
  rw [hfunctions]
  decide

end Program

end Conductor
