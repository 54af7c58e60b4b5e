import Conductor.Proofs.Artifact.Accepted
import Conductor.Proofs.Artifact.Sections

namespace Conductor

open Archive

namespace Store

variable {α β : Type} {f : Store → α → β × Store} {R : α → β → Prop}

theorem forall₂_traverse (h : ∀ s a, R a (f s a).1) (s : Store) (items : List α) :
    List.Forall₂ R items (s.traverse f items).1 := by
  induction items generalizing s with
  | nil => exact .nil
  | cons item rest ih => exact .cons (h s item) (ih _)

end Store

namespace DeviceBinding

theorem WordSized.thaw {d : DeviceBinding Archived} (h : d.WordSized) (s : Store) :
    (d.thaw s).1.WordSized := ⟨h.name, h.controller, h.count, h.ports⟩

theorem same_self {α : Type} {R : α → α → Prop} {d : DeviceBinding α} (h : R d.initial d.initial) :
    Same R d d where
  name := rfl
  type := rfl
  controller := rfl
  ports := fun _ => rfl
  initial := h
  isVtype := rfl
  readPolicy := rfl
  overwritePolicy := rfl
  isYield := rfl
  pollingPeriod := rfl
  isConst := rfl
  ignoreWriteBacks := rfl
  kind := rfl

end DeviceBinding

namespace TaskRecord

theorem WordSized.thaw {t : TaskRecord Archived} (h : t.WordSized) (s : Store) :
    (t.thaw s).1.WordSized := by
  have hdevices (s : Store) {ds : List (DeviceBinding Archived)}
      (hcount : ds.length < byteCapacity 8) (hds : ∀ d ∈ ds, d.WordSized) :
      (s.traverse DeviceBinding.thaw ds).1.length < byteCapacity 8 ∧
        ∀ d ∈ (s.traverse DeviceBinding.thaw ds).1, d.WordSized := by
    have hthawed := Store.forall₂_traverse
      (R := fun (d : DeviceBinding Archived) (e : DeviceBinding Value) => d.WordSized → e.WordSized)
      (fun s d hd => hd.thaw s) s ds
    refine ⟨hthawed.length_eq ▸ hcount, ?_⟩
    exact forall_right_of_forall₂ hthawed fun d hd e _ himp => himp (hds d hd)
  obtain ⟨hboundCount, hbound⟩ := hdevices s h.boundCount h.bound
  obtain ⟨hinputsCount, hinputs⟩ := hdevices (s.traverse DeviceBinding.thaw t.bound).2
    h.inputsCount h.inputs
  obtain ⟨houtputsCount, houtputs⟩ := hdevices
    ((s.traverse DeviceBinding.thaw t.bound).2.traverse DeviceBinding.thaw t.inputs).2
    h.outputsCount h.outputs
  exact ⟨h.name, hboundCount, hbound, hinputsCount, hinputs, houtputsCount, houtputs, h.controller,
    h.triggersCount, h.triggers⟩

theorem same_self {α : Type} {R : α → α → Prop} {t : TaskRecord α}
    (h : ∀ d ∈ t.devices, R d.initial d.initial) : Same R t t := by
  simp only [devices, List.forall_mem_append] at h
  have hdevices {ds : List (DeviceBinding α)} (hds : ∀ d ∈ ds, R d.initial d.initial) :
      List.Forall₂ (DeviceBinding.Same R) ds ds :=
    List.forall₂_same.mpr fun d hmem => DeviceBinding.same_self (hds d hmem)
  exact {
    name := rfl, bound := hdevices h.1.1, offset := rfl, inputs := hdevices h.1.2
    outputs := hdevices h.2, controller := rfl, triggers := rfl }

theorem Same.forall_devices {α β : Type} {P : β → Prop} {t : TaskRecord α} {u : TaskRecord β}
    (h : Same (fun _ v => P v) t u) : ∀ d ∈ u.devices, P d.initial := by
  have hdevices {ds : List (DeviceBinding α)} {es : List (DeviceBinding β)}
      (hsame : List.Forall₂ (DeviceBinding.Same fun _ v => P v) ds es) : ∀ e ∈ es, P e.initial :=
    forall_right_of_forall₂ hsame fun _ _ _ _ h => h.initial
  simp only [devices, List.forall_mem_append]
  exact ⟨⟨hdevices h.bound, hdevices h.inputs⟩, hdevices h.outputs⟩

end TaskRecord

namespace Program

-- Building the values of a program gives every one of them a form.
theorem storable_thaw {q : Program Archived} (h : ∀ tree ∈ q.values, tree.WordSized) (t : Store) :
    ∀ v ∈ (q.thaw t).1.values, (q.thaw t).2.Storable v := by
  simp only [values, List.forall_mem_append] at h
  have hkeep := Store.persistent_storable (α := Archived)
  have hself : ∀ u ∈ q.tasks, TaskRecord.Same (fun v tree => v = tree ∧ tree.WordSized) u u :=
    fun u hu => TaskRecord.same_self fun d hd =>
      ⟨rfl, h.2 _ (List.mem_flatMap.mpr ⟨u, hu, List.mem_map_of_mem hd⟩)⟩
  have htasks := Store.builds_traverse (TaskRecord.persistent_same hkeep) <|
    List.forall₂_same.mpr fun u hu => TaskRecord.builds_thaw (hself u hu) hkeep fun v tree hv =>
      hv.1 ▸ Archived.builds_storable (hv.1 ▸ hv.2)
  have hliterals := Store.builds_traverse hkeep <|
    List.forall₂_same.mpr fun tree hmem => Archived.builds_storable (h.1 tree hmem)
  obtain ⟨_, htasksBuilt, hliteralsBuilt⟩ := htasks.followed
    (Store.persistent_forall₂ (TaskRecord.persistent_same hkeep)) hliterals t
  simp only [values, List.forall_mem_append]
  refine ⟨forall_right_of_forall₂ hliteralsBuilt fun _ _ _ _ h => h, fun v hv => ?_⟩
  obtain ⟨u, hu, hv⟩ := List.mem_flatMap.mp hv
  obtain ⟨d, hd, rfl⟩ := List.mem_map.mp hv
  exact forall_right_of_forall₂ htasksBuilt (fun _ _ _ _ hsame => hsame.forall_devices) u hu d hd

open Serializer

-- What an artifact needs of a program, and a program has that was read.
theorem Accepted.thaw {q : Program Archived} (h : q.Accepted) (t : Store) :
    (q.thaw t).1.tasks.length < UInt16.size ∧ (q.thaw t).1.literals.length < UInt16.size ∧
      (∀ task ∈ (q.thaw t).1.tasks, task.WordSized) ∧
      (∀ task ∈ (q.thaw t).1.tasks, ∀ d ∈ task.devices, (q.thaw t).2.Storable d.initial) ∧
      ∀ v ∈ (q.thaw t).1.literals, (q.thaw t).2.Storable v := by
  have hvalues := storable_thaw h.values t
  simp only [Program.values, List.forall_mem_append] at hvalues
  have htasks := Store.forall₂_traverse
    (R := fun (u : TaskRecord Archived) (v : TaskRecord Value) => u.WordSized → v.WordSized)
    (fun s u hu => hu.thaw s) t q.tasks
  have hliterals := Store.forall₂_traverse (R := fun (_ : Archived) (_ : Value) => True)
    (f := Archived.thaw) (fun _ _ => trivial) (t.traverse TaskRecord.thaw q.tasks).2 q.literals
  refine ⟨htasks.length_eq ▸ h.tasks, hliterals.length_eq ▸ h.literals,
    forall_right_of_forall₂ htasks fun u hu _ _ himp => himp (h.wordSized u hu), ?_, hvalues.1⟩
  exact fun task htask d hd =>
    hvalues.2 _ (List.mem_flatMap.mpr ⟨task, htask, List.mem_map_of_mem hd⟩)

theorem write_eq_error_of_void {q : Program Archived} (h : q.Accepted) (t : Store) {index : Nat}
    (hvoid : (q.thaw t).1.literals.findIdx? Value.isVoid = some index) :
    (q.thaw t).1.write (q.thaw t).2 = .error (.unrepresentable index .void) := by
  obtain ⟨hcount, _, hsized, hinitial, _⟩ := h.thaw t
  obtain ⟨word, first, session, hmetadata, hheader, hsession⟩ :=
    exists_writeHeader_of_storable h.ids h.metadata hcount hsized hinitial
  have hfails : Fails (writeTo (q.thaw t).2 (q.thaw t).1) { sink := { bytes := #[] } }
      (.unrepresentable index .void) { session with poisoned := true } :=
    fails_bind_iff.mpr (.inr ⟨word, first, hmetadata,
      fails_bind_iff.mpr (.inr ⟨(), session, hheader,
        fails_bind_iff.mpr (.inl (fails_writeLiterals_of_void hsession hvoid))⟩)⟩)
  unfold Fails at hfails
  rw [write, hfails]

-- Whatever bytes a program was read from, it is written and read again as the same program, unless
-- one of its literals is void. Then the first of these is what the writer refuses.
theorem reproduced_of_read {bytes : Bytes} {position : Nat} {q : Program Archived}
    (hread : read bytes position = .ok q) (t : Store) :
    ((∀ v ∈ (q.thaw t).1.literals, ¬v.isVoid) →
      ∃ again r, (q.thaw t).1.write (q.thaw t).2 = .ok again ∧ read again 0 = .ok r ∧
        ∀ u : Store, u.Extends (r.thaw u).2 ∧
          Same (q.thaw t).2 (r.thaw u).2 (q.thaw t).1 (r.thaw u).1 ∧
          (r.thaw u).1.code = (q.thaw t).1.code) ∧
    ∀ index, (q.thaw t).1.literals.findIdx? Value.isVoid = some index →
      (q.thaw t).1.write (q.thaw t).2 = .error (.unrepresentable index .void) := by
  have haccepted := accepted_of_read hread
  refine ⟨fun hvoid => ?_, fun index => write_eq_error_of_void haccepted t⟩
  obtain ⟨htaskCount, hliteralCount, hsized, hinitial, hstorable⟩ := haccepted.thaw t
  obtain ⟨functions, htable, hfunctions⟩ :=
    SymbolTable.exists_carries_byId haccepted.ids haccepted.metadata
  obtain ⟨records, hrecords, htasks⟩ := exists_carries_tasks hsized hinitial
  obtain ⟨trees, htrees, hliterals⟩ := exists_carries_literals hstorable
  have hwrite := write_eq_sections (p := (q.thaw t).1) haccepted.ids htable.unharmed
    haccepted.metadata (unharmed_counted hrecords.unharmed) htaskCount
    (unharmed_counted htrees.unharmed) hliteralCount hvoid
  have hagain := read_sections (p := (q.thaw t).1) haccepted.metadata htaskCount hliteralCount
    htable hrecords htrees
  have hbuilt (u : Store) := extends_thaw (t := u) (p := (q.thaw t).1)
    (q := { functions, tasks := records, literals := trees, code := place 0 (q.code.map Prod.snd) })
    hfunctions htasks hliterals rfl
  exact ⟨_, _, hwrite, hagain, fun u => ⟨(hbuilt u).1, (hbuilt u).2, haccepted.code.symm⟩⟩

-- An artifact without functions, tasks and code, with one literal.
def literalArtifact (tree : Archived) : Bytes :=
  leBytes 4 12 ++ leBytes 8 0 ++ leBytes 2 0 ++ (leBytes 2 1 ++ tree.encode)

theorem exists_read_literalArtifact {tree : Archived} (h : tree.WordSized) :
    ∃ q, read (literalArtifact tree) 0 = .ok q ∧ q.literals = [tree] := by
  have hids : ((.empty : SymbolTable).toList.map fun function => function.2.id).Nodup := .nil
  have hend : 4 + (SymbolTable.emission (SymbolTable.byId .empty)).bytes.length < UInt32.size := by
    rw [SymbolTable.byId_empty]
    decide
  obtain ⟨functions, htable, _⟩ := SymbolTable.exists_carries_byId hids hend
  have hheader : Carries (.concat [])
      (Archive.Reader.times (TaskRecord.read Archived.decode) 0) [] := .concat_nil []
  have hpool : Carries (.concat ([tree].map fun tree => { bytes := tree.encode }))
      (Archive.Reader.times Archived.decode 1) [tree] :=
    .times (.cons ⟨rfl, Archived.reads_decode h⟩ .nil)
  have hread := read_parts [] hend (by decide) (by decide) htable hheader hpool
  rw [SymbolTable.byId_empty, List.map_singleton, Emission.concat_singleton, List.flatMap_nil,
    List.append_nil] at hread
  exact ⟨_, hread, rfl⟩

-- A list with two samples, and in it a map with one sample and with a key that repeats.
def oddLiteral : Archived :=
  .list .int [.int 1, .string "é"]
    [.map .string .any [.void] [("k", .int 1), ("k", .bool true)]]

theorem wordSized_oddLiteral : oddLiteral.WordSized := by
  refine .list (by decide) (by decide) ?_ ?_
  · simp only [List.forall_mem_cons]
    exact ⟨.int 1, .string (by decide), List.forall_mem_nil _⟩
  · rw [List.forall_mem_singleton]
    refine .map (by decide) (by decide) (List.forall_mem_singleton.mpr .void) (by decide) ?_
    simp only [List.forall_mem_cons]
    exact ⟨.int 1, .bool true, List.forall_mem_nil _⟩

theorem reproduced_of_read_oddLiteral :
    ∃ q, read (literalArtifact oddLiteral) 0 = .ok q ∧
      (∀ v ∈ (q.thaw .empty).1.literals, ¬v.isVoid) ∧
      ∃ again r, (q.thaw .empty).1.write (q.thaw .empty).2 = .ok again ∧ read again 0 = .ok r ∧
        ∀ u : Store, u.Extends (r.thaw u).2 ∧
          Same (q.thaw .empty).2 (r.thaw u).2 (q.thaw .empty).1 (r.thaw u).1 ∧
          (r.thaw u).1.code = (q.thaw .empty).1.code := by
  obtain ⟨q, hread, hliterals⟩ := exists_read_literalArtifact wordSized_oddLiteral
  have hvoid : ∀ v ∈ (q.thaw .empty).1.literals, ¬v.isVoid := by
    change ∀ v ∈ (Store.traverse Archived.thaw _ q.literals).1, _
    rw [hliterals]
    exact List.forall_mem_singleton.mpr Bool.false_ne_true
  exact ⟨q, hread, hvoid, (reproduced_of_read hread .empty).1 hvoid⟩

-- The reader takes a literal that is void, and the writer does not.
theorem not_reproduced_void :
    ∃ q, read [12, 0, 0, 0, 0, 0, 0, 0, 0, 0, 0, 0, 0, 0, 1, 0, 0, 0, 0, 0] 0 = .ok q ∧
      ∀ t, (q.thaw t).1.write (q.thaw t).2 = .error (.unrepresentable 0 .void) := by
  have hbytes : literalArtifact .void =
      [12, 0, 0, 0, 0, 0, 0, 0, 0, 0, 0, 0, 0, 0, 1, 0, 0, 0, 0, 0] := by decide
  obtain ⟨q, hread, hliterals⟩ := exists_read_literalArtifact .void
  rw [hbytes] at hread
  refine ⟨q, hread, fun t => write_eq_error_of_void (accepted_of_read hread) t ?_⟩
  change (Store.traverse Archived.thaw _ q.literals).1.findIdx? Value.isVoid = some 0
  rw [hliterals]
  rfl

end Program

end Conductor
