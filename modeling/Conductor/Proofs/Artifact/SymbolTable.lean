import Conductor.Artifact.SymbolTable
import Conductor.Proofs.Archive.Tree
import Conductor.Proofs.OrderedMap

namespace Conductor

open Archive

namespace SymbolTable

def entryEmission (function : String × Function) : Emission :=
  .number 2 function.2.id.toNat ++ .text function.1 ++ .seq .text function.2.dependencies

def entryReader : Reader (UInt16 × String × List String) := do
  let id := UInt16.ofNat (← Reader.number 2)
  let name ← Reader.text
  return (id, name, ← Reader.seq Reader.text)

-- A function whose texts and whose number of dependencies a machine word can measure.
structure WordSized (function : String × Function) : Prop where
  name : Archive.WordSized function.1
  count : function.2.dependencies.length < byteCapacity 8
  dependencies : ∀ name ∈ function.2.dependencies, Archive.WordSized name

theorem carries_entry {function : String × Function} (h : WordSized function) :
    Carries (entryEmission function) entryReader
      (function.2.id, function.1, function.2.dependencies) := by
  rw [entryEmission, Emission.append_assoc]
  refine .bind (.number function.2.id.toNat_lt) (.bind (.text h.name) ?_)
  refine .last (.seq_self h.count fun name hmem => .text (h.dependencies name hmem)) ?_
  rw [UInt16.ofNat_toNat]
  exact .pure _

theorem entryEmission_eq (function : String × Function) :
    entryEmission function =
      { bytes := leBytes 2 function.2.id.toNat ++ (textBytes function.1 ++
          (Emission.seq Emission.text function.2.dependencies).bytes) } := by
  rw [entryEmission, Emission.append_assoc, Emission.append_of_unharmed _ rfl,
    Emission.append_of_unharmed _ rfl, Emission.seq_eq fun _ _ => rfl]
  rfl

-- Whatever is part of an archive that a machine word can measure has a size that it can measure.
theorem wordSized_of_length_lt {functions : List (String × Function)}
    (h : (emission functions).bytes.length < byteCapacity 8) :
    functions.length < byteCapacity 8 ∧ ∀ function ∈ functions, WordSized function := by
  have htext (text : String) :
      (Emission.text text).bytes.length = 8 + (Utf8.encode text).length := by
    change (textBytes text).length = _
    rw [textBytes, List.length_append, length_leBytes]
  obtain ⟨hcount, hentries⟩ := Emission.length_le_length_seq entryEmission functions
    fun function _ => by
      rw [entryEmission_eq]
      refine ⟨rfl, ?_⟩
      rw [List.length_append, length_leBytes]
      omega
  refine ⟨Nat.lt_of_le_of_lt hcount h, fun function hmem => ?_⟩
  have hentry := Nat.lt_of_le_of_lt (hentries function hmem) h
  rw [entryEmission_eq] at hentry
  simp only [List.length_append, length_leBytes] at hentry
  obtain ⟨hnames, hdependencies⟩ := Emission.length_le_length_seq Emission.text
    function.2.dependencies fun name _ => by
      refine ⟨rfl, ?_⟩
      rw [htext]
      omega
  refine ⟨?_, ?_, fun name hname => ?_⟩
  · have hname := htext function.1
    change (textBytes function.1).length = _ at hname
    unfold Archive.WordSized
    omega
  · omega
  · have hdependency := hdependencies name hname
    rw [htext] at hdependency
    unfold Archive.WordSized
    omega

-- The functions of an artifact by number, each with its name and the names it depends on.
abbrev Recorded := OrderedMap UInt16 (String × List String)

def recorded : Reader Recorded := do
  return (OrderedMap.ofList (← Reader.seq entryReader)).sorted

def byName (entry : UInt16 × String × List String) : String × Function :=
  (entry.2.1, { id := entry.1, dependencies := entry.2.2 })

def rekeyed (m : Recorded) : SymbolTable := .ofList (m.toList.map byName)

theorem read_eq : read = do return rekeyed (← recorded) := by
  rw [recorded, bind_assoc]
  simp only [pure_bind]
  rfl

theorem carries_recorded {functions : List (String × Function)}
    (hsize : (emission functions).bytes.length < byteCapacity 8) :
    Carries (emission functions) recorded (OrderedMap.ofList
      (functions.map fun function =>
        (function.2.id, function.1, function.2.dependencies))).sorted := by
  obtain ⟨hcount, hentries⟩ := wordSized_of_length_lt hsize
  have hread : Carries (emission functions) (Reader.seq entryReader)
      (functions.map fun function => (function.2.id, function.1, function.2.dependencies)) :=
    .seq hcount (List.forall₂_map_right_iff.mpr (List.forall₂_same.mpr fun function hmem =>
      carries_entry (hentries function hmem)))
  exact .last hread (.pure _)

-- Entries whose names and numbers differ make up the table they came from.
theorem exists_carries {functions : List (String × Function)}
    (hsize : (emission functions).bytes.length < byteCapacity 8)
    (hids : (functions.map fun function => function.2.id).Nodup)
    (hnames : (functions.map Prod.fst).Nodup) :
    ∃ table : SymbolTable, Carries (emission functions) read table ∧
      table.toList.Perm functions := by
  have hrecorded := carries_recorded hsize
  generalize hentries : (functions.map fun function =>
    (function.2.id, function.1, function.2.dependencies)) = entries at hrecorded
  have hkeys : (entries.map Prod.fst).Nodup := by
    rw [← hentries, List.map_map]
    exact hids
  have hsorted : (OrderedMap.ofList entries).sorted.toList.Perm entries := by
    have hperm := (OrderedMap.ofList entries).toList_sorted_perm
    rwa [OrderedMap.toList_ofList hkeys] at hperm
  have hback : entries.map byName = functions := by
    rw [← hentries, List.map_map]
    exact List.map_id _
  have hperm := hsorted.map byName
  rw [hback] at hperm
  refine ⟨rekeyed (OrderedMap.ofList entries).sorted, read_eq ▸ .last hrecorded (.pure _), ?_⟩
  rw [rekeyed, OrderedMap.toList_ofList ((hperm.map Prod.fst).nodup_iff.mpr hnames)]
  exact hperm

end SymbolTable

end Conductor
