import Conductor.Artifact.Program
import Conductor.Proofs.Archive.Accepted
import Conductor.Proofs.Artifact.RoundTrip
import Conductor.Proofs.Instruction.Defect

namespace Conductor

open Archive

variable {α β : Type}

theorem Trigger.accepts_read : Accepts Trigger.read fun t _ => t.WordSized :=
  .bind (.seq_forall .text_wordSized) fun _ _ hrule => .bind .text_wordSized fun _ _ hid =>
    .bind (.number 2) fun _ _ _ => .pure ⟨hrule.1, hrule.2, hid⟩

namespace DeviceBinding

theorem wordSized_ofList {ports : List (String × String)} (hcount : ports.length < byteCapacity 8)
    (h : ∀ pin ∈ ports, Archive.WordSized pin.1 ∧ Archive.WordSized pin.2) :
    (OrderedMap.ofList ports).sorted.size < byteCapacity 8 ∧
      ∀ pin ∈ (OrderedMap.ofList ports).sorted.toList,
        Archive.WordSized pin.1 ∧ Archive.WordSized pin.2 := by
  have hperm := (OrderedMap.ofList ports).toList_sorted_perm
  refine ⟨?_, fun pin hmem => h pin (OrderedMap.mem_of_mem_ofList (hperm.mem_iff.mp hmem))⟩
  rw [OrderedMap.size, hperm.length_eq]
  exact Nat.lt_of_le_of_lt (OrderedMap.subperm_ofList ports).length_le hcount

theorem accepts_read {W : α → Prop} {value : Reader α} (h : Accepts value fun v _ => W v) :
    Accepts (read value) fun d _ => d.WordSized ∧ W d.initial := by
  have hpin : Accepts (do return (← Reader.text, ← Reader.text))
      fun (pin : String × String) _ => Archive.WordSized pin.1 ∧ Archive.WordSized pin.2 :=
    .bind .text_wordSized fun _ _ hname => .bind .text_wordSized fun _ _ hport =>
      .pure ⟨hname, hport⟩
  refine .bind .text_wordSized fun name _ hname => .bind .tag fun type _ _ =>
    .bind .text_wordSized fun controller _ hcontroller =>
    .bind (.seq_forall hpin) fun ports _ hports => .bind h fun initial _ hinitial =>
    .bind .bool fun isVtype _ _ => .bind (.choice _) fun readPolicy _ _ =>
    .bind (.choice _) fun overwritePolicy _ _ => .bind .bool fun isYield _ _ =>
    .bind (.number 4) fun period _ _ => .bind .bool fun isConst _ _ =>
    .bind .bool fun ignoreWriteBacks _ _ => .bind (.choice _) fun kind _ _ => .pure ?_
  obtain ⟨hcount, hpins⟩ := wordSized_ofList hports.1 hports.2
  exact ⟨⟨hname, hcontroller, hcount, hpins⟩, hinitial⟩

end DeviceBinding

theorem TaskRecord.accepts_read {W : α → Prop} {value : Reader α}
    (h : Accepts value fun v _ => W v) :
    Accepts (TaskRecord.read value) fun t _ =>
      t.WordSized ∧ ∀ d ∈ t.devices, W d.initial := by
  have hdevices := Accepts.seq_forall (DeviceBinding.accepts_read h)
  refine .bind .text_wordSized fun name _ hname => .bind hdevices fun bound _ hbound =>
    .bind (.number 4) fun offset _ _ => .bind hdevices fun inputs _ hinputs =>
    .bind hdevices fun outputs _ houtputs => .bind .text_wordSized fun controller _ hcontroller =>
    .bind (.seq_forall Trigger.accepts_read) fun triggers _ htriggers => .pure ⟨?_, ?_⟩
  · exact {
      name := hname, boundCount := hbound.1, bound := fun d hmem => (hbound.2 d hmem).1
      inputsCount := hinputs.1, inputs := fun d hmem => (hinputs.2 d hmem).1
      outputsCount := houtputs.1, outputs := fun d hmem => (houtputs.2 d hmem).1
      controller := hcontroller, triggersCount := htriggers.1, triggers := htriggers.2 }
  · simp only [devices, List.forall_mem_append]
    exact ⟨⟨fun d hmem => (hbound.2 d hmem).2, fun d hmem => (hinputs.2 d hmem).2⟩,
      fun d hmem => (houtputs.2 d hmem).2⟩

namespace SymbolTable

theorem accepts_entryReader : Accepts entryReader fun entry front =>
    front = (entryEmission (entry.2.1, { id := entry.1, dependencies := entry.2.2 })).bytes := by
  have hname : Accepts Reader.text fun name front => front = textBytes name :=
    Accepts.text.imp fun _ _ h => h.2
  refine .bind (.number 2) fun id _ hid => .bind .text fun name _ hname' =>
    .bind (.seq_encode hname) fun dependencies _ hdependencies => .pure ?_
  obtain ⟨hlt, rfl⟩ := hid
  obtain ⟨_, rfl⟩ := hname'
  subst hdependencies
  have hid : (UInt16.ofNat id).toNat = id := UInt16.toNat_ofNat_of_lt hlt
  rw [entryEmission_eq, Emission.seq_eq fun _ _ => rfl, List.append_nil]
  simp only [hid]
  rfl

theorem bytes_emission (functions : List (String × Function)) :
    (emission functions).bytes = leBytes 8 functions.length ++
      functions.flatMap fun function => (entryEmission function).bytes := by
  have hunharmed (function : String × Function) : (entryEmission function).fault = none := by
    rw [entryEmission_eq]
  exact congrArg Emission.bytes (Emission.seq_eq fun function _ => hunharmed function)

-- Numbers that differ still do when some of the functions are gone.
theorem nodup_ids_rekeyed (m : Recorded) :
    ((rekeyed m).toList.map fun function => function.2.id).Nodup := by
  obtain ⟨middle, hperm, hsub⟩ := OrderedMap.subperm_ofList (m.toList.map byName)
  have hids : ((m.toList.map byName).map fun function => function.2.id).Nodup := by
    rw [List.map_map]
    exact m.nodup
  exact (hperm.map _).nodup_iff.mp ((hsub.map _).nodup hids)

-- A table takes at least as many bytes as it has when it is written, and its numbers differ.
theorem accepts_read : Accepts read fun table front =>
    (emission table.byId).bytes.length ≤ front.length ∧
      (table.toList.map fun function => function.2.id).Nodup := by
  refine .bind (.seq_encode accepts_entryReader) fun entries front hentries => .pure ?_
  subst hentries
  let kept : Recorded := (OrderedMap.ofList entries).sorted
  change (emission (rekeyed kept).byId).bytes.length ≤ _ ∧
    ((rekeyed kept).toList.map fun function => function.2.id).Nodup
  refine ⟨?_, nodup_ids_rekeyed kept⟩
  have hsub : (rekeyed kept).byId.Subperm (entries.map byName) := by
    refine (rekeyed kept).perm_byId.subperm.trans
      (List.subperm_of_subset (List.Nodup.of_map _ (rekeyed kept).nodup) fun entry hmem => ?_)
    obtain ⟨other, hother, rfl⟩ := List.mem_map.mp (OrderedMap.mem_of_mem_ofList hmem)
    have hkept := (OrderedMap.ofList entries).toList_sorted_perm.mem_iff.mp hother
    exact List.mem_map_of_mem (OrderedMap.mem_of_mem_ofList hkept)
  have hlength := length_flatMap_le_of_subperm (fun entry => (entryEmission entry).bytes) hsub
  rw [List.flatMap_map] at hlength
  rw [bytes_emission, List.append_nil, List.length_append, List.length_append, length_leBytes,
    length_leBytes]
  exact Nat.add_le_add_left hlength 8

end SymbolTable

namespace Program

-- A program that some bytes hold.
structure Accepted (q : Program Archived) : Prop where
  ids : (q.functions.toList.map fun function => function.2.id).Nodup
  metadata : 4 + (SymbolTable.emission q.functions.byId).bytes.length < UInt32.size
  tasks : q.tasks.length < UInt16.size
  literals : q.literals.length < UInt16.size
  wordSized : ∀ t ∈ q.tasks, t.WordSized
  values : ∀ tree ∈ q.values, tree.WordSized
  code : q.code = place 0 (q.code.map Prod.snd)

theorem eq_ok_of_number {width n : Nat} {bytes rest : Bytes}
    (h : number width bytes = .ok (n, rest)) :
    Archive.Reader.number width bytes = .ok (n, rest) := by
  rw [number] at h
  cases hread : Archive.Reader.number width bytes with
  | error fault =>
    rw [hread] at h
    cases h
  | ok result =>
    rw [hread] at h
    cases h
    rfl

theorem eq_ok_of_archived {read : Archive.Reader α} {bytes rest : Bytes} {a : α}
    (h : archived read bytes = .ok (a, rest)) : read bytes = .ok (a, rest) := by
  rw [archived] at h
  cases hread : read bytes with
  | error fault =>
    rw [hread] at h
    cases h
  | ok result =>
    rw [hread] at h
    cases h
    rfl

theorem number_eq_ok {width n : Nat} {bytes rest : Bytes} (h : number width bytes = .ok (n, rest)) :
    n < byteCapacity width ∧ bytes = leBytes width n ++ rest := by
  obtain ⟨front, rfl, hn, rfl⟩ := Accepts.number width _ _ _ (eq_ok_of_number h)
  exact ⟨hn, rfl⟩

theorem archived_eq_ok {read : Archive.Reader α} {P : α → Bytes → Prop} (hread : Accepts read P)
    {bytes rest : Bytes} {a : α} (h : archived read bytes = .ok (a, rest)) :
    ∃ front, bytes = front ++ rest ∧ P a front :=
  hread _ _ _ (eq_ok_of_archived h)

-- The decoder faults where the bytes are not those of instructions, so there is no such place.
theorem instructions_eq_ok {bytes rest : Bytes} {code : List Placed}
    (h : instructions bytes = .ok (code, rest)) : code = place 0 (code.map Prod.snd) := by
  have hstart : Decoder.Within bytes { rest := bytes } := ⟨rfl, Nat.zero_le _⟩
  obtain ⟨whole, tail, ending, hitems, _, _, hholds, _⟩ := hstart.run_cases rfl
  rw [instructions, Decoder.instructions, hitems] at h
  have hfault (fault : CodeFault) : tail ≠ [.error fault] := by
    rintro rfl
    rw [Decoder.mapM_id_append_error] at h
    cases h
  cases ending with
  | whole =>
    obtain ⟨_, rfl⟩ := hholds
    rw [List.append_nil, Decoder.mapM_id_map_ok] at h
    cases h
    rw [map_snd_place]
  | invalidOpcode =>
    obtain ⟨_, _, _, htail⟩ := hholds
    exact absurd htail (hfault _)
  | truncated =>
    obtain ⟨_, _, _, _, _, htail⟩ := hholds
    exact absurd htail (hfault _)

-- The sections of a program that was read, each from where the one before it ends.
theorem sections_of_reader_eq_ok {size : Nat} {bytes last : Bytes} {q : Program Archived}
    (h : reader size bytes = .ok (q, last)) :
    ∃ expected table afterTable taskCount tasks afterTasks literalCount literals code,
      number 4 bytes = .ok (expected, table) ∧
      archived SymbolTable.read table = .ok (q.functions, afterTable) ∧
      size - afterTable.length = expected ∧
      number 2 afterTable = .ok (taskCount, tasks) ∧
      archived (Archive.Reader.times (TaskRecord.read Archived.decode) taskCount) tasks =
        .ok (q.tasks, afterTasks) ∧
      number 2 afterTasks = .ok (literalCount, literals) ∧
      archived (Archive.Reader.times Archived.decode literalCount) literals =
        .ok (q.literals, code) ∧
      instructions code = .ok (q.code, last) := by
  rw [reader] at h
  obtain ⟨expected, table, hword, h⟩ := exists_of_bind_eq_ok h
  obtain ⟨functions, afterTable, htable, h⟩ := exists_of_bind_eq_ok h
  obtain ⟨_, _, ⟨⟩, h⟩ := exists_of_bind_eq_ok h
  by_cases hend : size - afterTable.length = expected
  · rw [if_neg (not_not_intro hend)] at h
    obtain ⟨taskCount, tasks, htaskCount, h⟩ := exists_of_bind_eq_ok h
    obtain ⟨_, afterTasks, htasks, h⟩ := exists_of_bind_eq_ok h
    obtain ⟨literalCount, literals, hliteralCount, h⟩ := exists_of_bind_eq_ok h
    obtain ⟨_, code, hliterals, h⟩ := exists_of_bind_eq_ok h
    obtain ⟨_, _, hcode, ⟨⟩⟩ := exists_of_bind_eq_ok h
    exact ⟨expected, table, afterTable, taskCount, tasks, afterTasks, literalCount, literals, code,
      hword, htable, hend, htaskCount, htasks, hliteralCount, hliterals, hcode⟩
  · rw [if_pos hend] at h
    cases h

theorem exists_reader_of_read {bytes : Bytes} {position : Nat} {q : Program Archived}
    (h : read bytes position = .ok q) :
    ∃ last, reader bytes.length (bytes.drop position) = .ok (q, last) := by
  rw [read] at h
  obtain ⟨⟨_, last⟩, hreader, ⟨⟩⟩ := exists_of_bind_ok h
  exact ⟨last, hreader⟩

theorem accepted_of_read {bytes : Bytes} {position : Nat} {q : Program Archived}
    (h : read bytes position = .ok q) : q.Accepted := by
  obtain ⟨last, hreader⟩ := exists_reader_of_read h
  obtain ⟨expected, table, afterTable, _, tasks, _, _, literals, _, hword, htable, hend,
    htaskCount, hheader, hliteralCount, hpool, hcode⟩ := sections_of_reader_eq_ok hreader
  obtain ⟨hexpected, hbytes⟩ := number_eq_ok hword
  obtain ⟨front, hfront, hlength, hids⟩ := archived_eq_ok SymbolTable.accepts_read htable
  obtain ⟨_, _, rfl, htasks⟩ := archived_eq_ok
    ((TaskRecord.accepts_read Archived.accepts_decode).times_forall _) hheader
  obtain ⟨_, _, rfl, hliterals⟩ := archived_eq_ok (Archived.accepts_decode.times_forall _) hpool
  -- The word in front is the end of the table, so a table that was read is not too long for one.
  have hmetadata : 4 + (SymbolTable.emission q.functions.byId).bytes.length < UInt32.size := by
    have hdrop := congrArg List.length hbytes
    rw [List.length_drop, hfront, List.length_append, List.length_append, length_leBytes] at hdrop
    have hcapacity : byteCapacity 4 = UInt32.size := by decide
    omega
  refine ⟨hids, hmetadata, (number_eq_ok htaskCount).1, (number_eq_ok hliteralCount).1,
    fun t hmem => (htasks t hmem).1, fun tree hmem => ?_, instructions_eq_ok hcode⟩
  rcases List.mem_append.mp hmem with hmem | hmem
  · exact hliterals tree hmem
  · obtain ⟨t, ht, hmem⟩ := List.mem_flatMap.mp hmem
    obtain ⟨d, hd, rfl⟩ := List.mem_map.mp hmem
    exact (htasks t ht).2 d hd

end Program

end Conductor
