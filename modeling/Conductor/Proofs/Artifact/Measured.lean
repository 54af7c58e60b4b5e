import Conductor.Proofs.Archive.Nodes
import Conductor.Proofs.Artifact.Refusal

namespace Conductor

namespace Archive

namespace Emission

variable {α : Type} {emit : α → Emission} {items : List α} {first second : Emission}
  {parts : List Emission}

-- An archive that comes to no fault and whose length a machine word can hold.
structure Measured (emission : Emission) : Prop where
  unharmed : emission.fault = none
  length : emission.bytes.length < byteCapacity 8

theorem Measured.of_append (h : (first ++ second).Measured) : first.Measured ∧ second.Measured := by
  obtain ⟨hfault, hlength⟩ := h
  rw [fault_append, Option.or_eq_none_iff] at hfault
  rw [append_of_unharmed second hfault.1, List.length_append] at hlength
  exact ⟨⟨hfault.1, by omega⟩, hfault.2, by omega⟩

-- The fields of a record.
theorem Measured.of_concat (h : (concat parts).Measured) : ∀ part ∈ parts, part.Measured := by
  induction parts with
  | nil => exact List.forall_mem_nil _
  | cons part rest ih =>
    have hparts : (part ++ concat rest).Measured := h
    obtain ⟨hpart, hrest⟩ := hparts.of_append
    exact List.forall_mem_cons.mpr ⟨hpart, ih hrest⟩

theorem Measured.wordSized {text : String} (h : (Emission.text text).Measured) : WordSized text :=
  wordSized_of_length_lt h.length

-- The elements of a sequence of which none is empty, and their number.
theorem Measured.of_seq (h : (seq emit items).Measured)
    (hpos : ∀ item ∈ items, 0 < (emit item).bytes.length) :
    items.length < byteCapacity 8 ∧ ∀ item ∈ items, (emit item).Measured := by
  have hitems : ∀ item ∈ items, (emit item).Measured := fun item hmem =>
    h.of_concat _ (List.mem_cons_of_mem _ (List.mem_map_of_mem hmem))
  have hcount := (length_le_length_seq emit items fun item hmem =>
    ⟨(hitems item hmem).unharmed, hpos item hmem⟩).1
  exact ⟨Nat.lt_of_le_of_lt hcount h.length, hitems⟩

theorem length_append_pos (h : 0 < first.bytes.length) (second : Emission) :
    0 < (first ++ second).bytes.length := by
  change 0 < (append first second).bytes.length
  rw [append]
  cases first.fault with
  | some fault => exact h
  | none =>
    rw [List.length_append]
    omega

theorem length_text_pos (text : String) : 0 < (Emission.text text).bytes.length := by
  change 0 < (textBytes text).length
  rw [textBytes, List.length_append, length_leBytes]
  omega

theorem length_seq_pos (emit : α → Emission) (items : List α) :
    0 < (seq emit items).bytes.length := by
  have hcount : 0 < (number 8 items.length).bytes.length := by
    change 0 < (leBytes 8 items.length).length
    rw [length_leBytes]
    decide
  exact length_append_pos hcount _

end Emission

end Archive

open Archive

variable {α : Type} {emit : α → Emission}

theorem Trigger.wordSized_of_measured {t : Trigger} (h : t.emission.Measured) : t.WordSized := by
  have hfields := h.of_concat
  simp only [List.forall_mem_cons] at hfields
  obtain ⟨hrule, hid, _⟩ := hfields
  obtain ⟨hcount, htexts⟩ := hrule.of_seq fun text _ => Emission.length_text_pos text
  exact ⟨hcount, fun text hmem => (htexts text hmem).wordSized, hid.wordSized⟩

theorem DeviceBinding.wordSized_of_measured {d : DeviceBinding α} (h : (d.emission emit).Measured) :
    d.WordSized ∧ (emit d.initial).Measured := by
  have hfields := h.of_concat
  simp only [List.forall_mem_cons] at hfields
  obtain ⟨hname, _, hcontroller, hports, hinitial, _⟩ := hfields
  obtain ⟨hcount, hpins⟩ := hports.of_seq fun pin _ =>
    Emission.length_append_pos (Emission.length_text_pos pin.1) (Emission.text pin.2)
  have hperm := d.ports.toList_sorted_perm
  rw [hperm.length_eq] at hcount
  refine ⟨⟨hname.wordSized, hcontroller.wordSized, hcount, fun pin hmem => ?_⟩, hinitial⟩
  obtain ⟨hpin, hport⟩ := (hpins pin (hperm.mem_iff.mpr hmem)).of_append
  exact ⟨hpin.wordSized, hport.wordSized⟩

theorem TaskRecord.wordSized_of_measured {t : TaskRecord α} (h : (t.emission emit).Measured) :
    t.WordSized ∧ ∀ d ∈ t.devices, (emit d.initial).Measured := by
  have hfields := h.of_concat
  simp only [List.forall_mem_cons] at hfields
  obtain ⟨hname, hbound, _, hinputs, houtputs, hcontroller, htriggers, _⟩ := hfields
  have hdevices {ds : List (DeviceBinding α)}
      (h : (Emission.seq (DeviceBinding.emission emit) ds).Measured) :
      ds.length < byteCapacity 8 ∧ ∀ d ∈ ds, d.WordSized ∧ (emit d.initial).Measured := by
    obtain ⟨hcount, hall⟩ := h.of_seq fun d _ =>
      Emission.length_append_pos (Emission.length_text_pos d.name) _
    exact ⟨hcount, fun d hmem => DeviceBinding.wordSized_of_measured (hall d hmem)⟩
  obtain ⟨hboundCount, hbound⟩ := hdevices hbound
  obtain ⟨hinputsCount, hinputs⟩ := hdevices hinputs
  obtain ⟨houtputsCount, houtputs⟩ := hdevices houtputs
  obtain ⟨htriggersCount, htriggers⟩ := htriggers.of_seq fun trigger _ =>
    Emission.length_append_pos (Emission.length_seq_pos Emission.text trigger.rule) _
  refine ⟨?_, ?_⟩
  · exact {
      name := hname.wordSized
      boundCount := hboundCount, bound := fun d hmem => (hbound d hmem).1
      inputsCount := hinputsCount, inputs := fun d hmem => (hinputs d hmem).1
      outputsCount := houtputsCount, outputs := fun d hmem => (houtputs d hmem).1
      controller := hcontroller.wordSized
      triggersCount := htriggersCount
      triggers := fun trigger hmem => Trigger.wordSized_of_measured (htriggers trigger hmem) }
  · simp only [devices, List.forall_mem_append]
    exact ⟨⟨fun d hmem => (hbound d hmem).2, fun d hmem => (hinputs d hmem).2⟩,
      fun d hmem => (houtputs d hmem).2⟩

-- A value whose archive can be measured reads back as the tree that it freezes to.
theorem Store.exists_carries_of_measured {s : Store} {v : Value} (h : (s.emission v).Measured) :
    ∃ tree, Carries (s.emission v) Archived.decode tree ∧ s.freeze v = .ok tree := by
  obtain ⟨hfault, hlength⟩ := h
  cases hfreeze : s.freeze v with
  | error fault =>
    rw [emission, hfreeze] at hfault
    cases hfault
  | ok tree =>
    rw [emission, hfreeze] at hlength ⊢
    exact ⟨tree, ⟨rfl, Archived.reads_decode (Archived.wordSized_of_length_lt hlength)⟩, rfl⟩

-- A header whose archive can be measured reads back.
theorem Store.exists_carries_tasks_of_measured {s : Store} {tasks : List (TaskRecord Value)}
    (h : (Emission.concat (tasks.map (TaskRecord.emission s.emission))).Measured) :
    ∃ records, Carries (.concat (tasks.map (TaskRecord.emission s.emission)))
      (Archive.Reader.times (TaskRecord.read Archived.decode) tasks.length) records := by
  have hmeasured : ∀ t ∈ tasks, (t.emission s.emission).Measured :=
    List.forall_mem_map.mp h.of_concat
  have htask : ∀ t ∈ tasks, ∃ u,
      Carries (t.emission s.emission) (TaskRecord.read Archived.decode) u ∧
      TaskRecord.Same (fun v tree => s.freeze v = .ok tree) t u := fun t ht => by
    obtain ⟨hsized, hinitial⟩ := TaskRecord.wordSized_of_measured (hmeasured t ht)
    exact TaskRecord.exists_carries hsized fun d hd =>
      Store.exists_carries_of_measured (hinitial d hd)
  obtain ⟨records, hrecords, _⟩ := exists_forall₂_and tasks htask
  exact ⟨records, .times hrecords⟩

-- So do literals, as the trees that they freeze to.
theorem Store.exists_carries_literals_of_measured {s : Store} {literals : List Value}
    (h : (Emission.concat (literals.map s.emission)).Measured) :
    ∃ trees, Carries (.concat (literals.map s.emission))
        (Archive.Reader.times Archived.decode literals.length) trees ∧
      List.Forall₂ (fun v tree => s.freeze v = .ok tree) literals trees := by
  have hmeasured : ∀ v ∈ literals, (s.emission v).Measured := List.forall_mem_map.mp h.of_concat
  obtain ⟨trees, htrees, hfrozen⟩ := exists_forall₂_and literals fun v hmem =>
    Store.exists_carries_of_measured (hmeasured v hmem)
  exact ⟨trees, .times htrees, hfrozen⟩

namespace Program

variable {s : Store} {p : Program Value} {bytes : Bytes}

-- What is written is the sections of the program, for no demand of the writer was refused.
theorem refusal?_of_write (h : p.write s = .ok bytes) :
    bytes = p.sections s ∧ ∀ d, Demand.refusal? s p d = none := by
  obtain ⟨hok, herror⟩ := write_eq_of_refusal s p
  cases hrefusal : Demand.all.findSome? (Demand.refusal? s p) with
  | some error =>
    rw [herror error hrefusal] at h
    cases h
  | none =>
    rw [hok hrefusal] at h
    cases h
    exact ⟨rfl, fun d => List.findSome?_eq_none_iff.mp hrefusal d d.mem_all⟩

theorem Counted.le_limit_of_refusal? {what : Counted} {count : Nat}
    (h : what.refusal? count = none) : count ≤ what.limit := by
  rw [Counted.refusal?] at h
  split at h
  next => cases h
  next hlimit => exact Nat.not_lt.mp hlimit

-- An artifact that can be measured is made of sections that each read back.
theorem exists_carries_of_write (h : p.write s = .ok bytes)
    (hlength : bytes.length < byteCapacity 8) :
    ∃ functions tasks literals, bytes = p.sections s ∧ p.metadataEnd < UInt32.size ∧
      p.tasks.length < UInt16.size ∧ p.literals.length < UInt16.size ∧
      Carries (SymbolTable.emission p.functions.byId) SymbolTable.read functions ∧
      Carries (.concat (p.tasks.map (TaskRecord.emission s.emission)))
        (Archive.Reader.times (TaskRecord.read Archived.decode) p.tasks.length) tasks ∧
      Carries (.concat (p.literals.map s.emission))
        (Archive.Reader.times Archived.decode p.literals.length) literals := by
  obtain ⟨rfl, hnone⟩ := refusal?_of_write h
  have hids := SymbolTable.nodup_of_refusal?_eq_none (hnone .distinctIds)
  have hend := Counted.le_limit_of_refusal? (hnone .metadataSize)
  have htasks := Counted.le_limit_of_refusal? (hnone .taskCount)
  have hliterals := Counted.le_limit_of_refusal? (hnone .literalCount)
  have hinitialForms := Option.map_eq_none_iff.mp (hnone .initialForms)
  have hliteralForms := Option.map_eq_none_iff.mp (hnone .literalForms)
  rw [sections, Emission.counted_eq, Emission.counted_eq] at hlength
  simp only [List.length_append] at hlength
  obtain ⟨functions, hfunctions, _⟩ :=
    SymbolTable.exists_carries_byId hids (Nat.lt_of_le_pred (by decide) hend)
  obtain ⟨tasks, htasksCarry⟩ := Store.exists_carries_tasks_of_measured ⟨hinitialForms, by omega⟩
  obtain ⟨literals, hliteralsCarry, _⟩ :=
    Store.exists_carries_literals_of_measured ⟨hliteralForms, by omega⟩
  exact ⟨functions, tasks, literals, rfl, Nat.lt_of_le_pred (by decide) hend,
    Nat.lt_of_le_pred (by decide) htasks, Nat.lt_of_le_pred (by decide) hliterals, hfunctions,
    htasksCarry, hliteralsCarry⟩

end Program

end Conductor
