import Conductor.Proofs.Artifact.Sections

namespace Conductor

open Archive

@[simp]
theorem findSome?_none {α β : Type} (items : List α) :
    (items.findSome? fun _ => (none : Option β)) = none :=
  List.findSome?_eq_none_iff.mpr fun _ _ => rfl

theorem findSome?_cons_or {α β : Type} (f : α → Option β) (item : α) (rest : List α) :
    (item :: rest).findSome? f = (f item).or (rest.findSome? f) := by
  rw [List.findSome?_cons]
  cases f item <;> rfl

namespace Archive.Emission

variable {α : Type}

@[simp]
theorem fault_number (width n : Nat) : (number width n).fault = none := rfl

@[simp]
theorem fault_bool (b : Bool) : (bool b).fault = none := rfl

@[simp]
theorem fault_text (text : String) : (Emission.text text).fault = none := rfl

@[simp]
theorem fault_tag (t : Tag) : (tag t).fault = none := rfl

@[simp]
theorem fault_choice [DecidableEq α] (values : List α) (value : α) :
    (choice values value).fault = none := rfl

-- The first fault is the one that shows.
@[simp]
theorem fault_append (first second : Emission) :
    (first ++ second).fault = first.fault.or second.fault := by
  cases hfirst : first.fault with
  | none => rw [append_of_unharmed second hfirst, Option.none_or]
  | some fault =>
    have hstop : first ++ second = first := by
      change append first second = first
      rw [append, hfirst]
    rw [hstop, hfirst, Option.some_or]

@[simp]
theorem fault_concat_nil : (concat []).fault = none := rfl

@[simp]
theorem fault_concat_cons (part : Emission) (rest : List Emission) :
    (concat (part :: rest)).fault = part.fault.or (concat rest).fault := fault_append ..

theorem fault_concat_map (emit : α → Emission) (items : List α) :
    (concat (items.map emit)).fault = items.findSome? fun item => (emit item).fault := by
  induction items with
  | nil => rfl
  | cons item rest ih => rw [List.map_cons, fault_concat_cons, ih, findSome?_cons_or]

@[simp]
theorem fault_seq (emit : α → Emission) (items : List α) :
    (seq emit items).fault = items.findSome? fun item => (emit item).fault := by
  rw [seq, fault_concat_cons, fault_concat_map, fault_number, Option.none_or]

end Archive.Emission

section Records

variable {α : Type} {emit : α → Emission}

theorem SymbolTable.fault_emission (functions : List (String × Function)) :
    (SymbolTable.emission functions).fault = none := by
  simp [SymbolTable.emission]

-- Nothing in a binding but its initial value can be without a form.
theorem DeviceBinding.fault_emission (d : DeviceBinding α) :
    (d.emission emit).fault = (emit d.initial).fault := by
  simp [DeviceBinding.emission]

theorem TaskRecord.fault_emission (t : TaskRecord α) :
    (t.emission emit).fault =
      (t.devices.map DeviceBinding.initial).findSome? fun v => (emit v).fault := by
  simp [TaskRecord.emission, TaskRecord.devices, Trigger.emission, DeviceBinding.fault_emission,
    List.findSome?_map, Function.comp_def]

end Records

-- What the writer demands of a program, in the order in which it does.
inductive Demand where
  | distinctIds
  | metadataSize
  | taskCount
  | initialForms
  | literalKinds
  | literalCount
  | literalForms

def Demand.all : List Demand :=
  [distinctIds, metadataSize, taskCount, initialForms, literalKinds, literalCount, literalForms]

theorem Demand.mem_all (d : Demand) : d ∈ all := by
  cases d <;> simp [all]

namespace Program

variable {α : Type}

-- Where the symbol table ends, behind the word that says so.
def metadataEnd (p : Program α) : Nat := 4 + (SymbolTable.emission p.functions.byId).bytes.length

-- The initial values of the devices, in the order in which they are written.
def initials (p : Program α) : List α :=
  p.tasks.flatMap fun t => t.devices.map DeviceBinding.initial

theorem fault_tasks (emit : α → Emission) (p : Program α) :
    (Emission.concat (p.tasks.map (TaskRecord.emission emit))).fault =
      p.initials.findSome? fun v => (emit v).fault := by
  rw [Emission.fault_concat_map, initials]
  induction p.tasks with
  | nil => rfl
  | cons t rest ih =>
    rw [findSome?_cons_or, ih, List.flatMap_cons, List.findSome?_append, TaskRecord.fault_emission]

end Program

-- Numbers that are not distinct, a count that is too large, and the fault of an archive, as errors
-- of the writer.
def SymbolTable.refusal? (table : SymbolTable) : Option EncodeError :=
  match table.indexed with
  | .ok _ => none
  | .error error => some error

def Counted.refusal? (what : Counted) (count : Nat) : Option EncodeError :=
  if what.limit < count then some (.tooMany what count) else none

def Archive.Emission.refusal? (emission : Emission) : Option EncodeError :=
  emission.fault.map fun fault => .archive (.freeze fault)

theorem SymbolTable.nodup_of_refusal?_eq_none {table : SymbolTable} (h : table.refusal? = none) :
    (table.toList.map fun function => function.2.id).Nodup := by
  rw [refusal?] at h
  split at h
  next functions hindexed => exact (indexed_eq_ok_iff.mp hindexed).1
  next error hindexed => cases h

namespace Demand

def refusal? (s : Store) (p : Program Value) : Demand → Option EncodeError
  | distinctIds => p.functions.refusal?
  | metadataSize => Counted.metadataBytes.refusal? p.metadataEnd
  | taskCount => Counted.tasks.refusal? p.tasks.length
  | initialForms => (Emission.concat (p.tasks.map (TaskRecord.emission s.emission))).refusal?
  | literalKinds => (p.literals.findIdx? Value.isVoid).map fun index =>
      .unrepresentable index .void
  | literalCount => Counted.literals.refusal? p.literals.length
  | literalForms => (Emission.concat (p.literals.map s.emission)).refusal?

end Demand

namespace Serializer

variable {α β : Type} {session : Serializer} {phase next : Phase} {bytes out more : Bytes}
  {refusal first second : Option EncodeError}

theorem fails_get_bind_iff {next : Serializer → Step α} {error : EncodeError} {after : Serializer} :
    Fails (get >>= next) session error after ↔ Fails (next session) session error after := Iff.rfl

-- A section that fails poisons its session.
theorem fails_guarded_of_fails {work : Step α} {error : EncodeError} {after : Serializer}
    (h : Holds session phase bytes) (hfails : Fails work session error after) :
    Fails (guarded phase work) session error { after with poisoned := true } := by
  unfold Fails at hfails ⊢
  rw [run_guarded h.poisoned h.phase, hfails]

theorem fails_writeMetadata_of_indexed {table : SymbolTable} {error : EncodeError}
    (h : Holds session .metadata bytes) (hindexed : table.indexed = .error error) :
    Fails (writeMetadata table) session error { session with poisoned := true } := by
  refine fails_guarded_of_fails h ?_
  rw [hindexed]
  rfl

theorem fails_writeMetadata_of_limit_lt {table : SymbolTable} (h : Holds session .metadata [])
    (hindexed : table.indexed = .ok table.byId)
    (hlimit : Counted.metadataBytes.limit < 4 + (SymbolTable.emission table.byId).bytes.length) :
    Fails (writeMetadata table) session
      (.tooMany .metadataBytes (4 + (SymbolTable.emission table.byId).bytes.length))
      { (session.grown (leBytes 4 0)).grown (SymbolTable.emission table.byId).bytes with
        poisoned := true } := by
  have hfault := SymbolTable.fault_emission table.byId
  have hword := h.grown (leBytes 4 0)
  have hfinish := (hword.grown (SymbolTable.emission table.byId).bytes).position_eq
  rw [List.nil_append, List.length_append, length_leBytes] at hfinish
  have hlift : writeMetadata.liftExcept (.ok table.byId) = pure table.byId := rfl
  refine fails_guarded_of_fails h ?_
  rw [hindexed, hlift, pure_bind, fails_get_bind_iff]
  refine fails_bind_iff.mpr (.inr ⟨(), _, returns_put_iff.mpr (h.delivers rfl),
    fails_bind_iff.mpr (.inr ⟨(), _, returns_emit_iff.mpr (hword.delivers hfault), ?_⟩)⟩)
  rw [fails_get_bind_iff, hfinish, if_pos hlimit]
  rfl

-- How a step ends: with an error, or in the next section with these bytes on the stream.
structure Ends (work : Step α) (session : Serializer) (refusal : Option EncodeError) (next : Phase)
    (bytes : Bytes) : Prop where
  returns : refusal = none → ∃ a after, Returns work session a after ∧ Holds after next bytes
  fails : ∀ error, refusal = some error → ∃ after, Fails work session error after

namespace Ends

theorem of_returns {work : Step α} {a : α} {after : Serializer} (h : Returns work session a after)
    (hafter : Holds after next bytes) : Ends work session none next bytes :=
  ⟨fun _ => ⟨a, after, h, hafter⟩, nofun⟩

theorem of_fails {work : Step α} {error : EncodeError} (after : Serializer)
    (h : Fails work session error after) : Ends work session (some error) next bytes :=
  ⟨nofun, fun _ herror => ⟨after, Option.some.inj herror ▸ h⟩⟩

theorem bind {work : Step α} {rest : α → Step β} (hwork : Ends work session first phase bytes)
    (hrest : ∀ a after, Holds after phase bytes → Ends (rest a) after second next out) :
    Ends (work >>= rest) session (first.or second) next out := by
  constructor
  · intro hnone
    obtain ⟨hfirst, hsecond⟩ := Option.or_eq_none_iff.mp hnone
    obtain ⟨a, middle, hreturns, hholds⟩ := hwork.returns hfirst
    obtain ⟨b, after, hback, hafter⟩ := (hrest a middle hholds).returns hsecond
    exact ⟨b, after, returns_bind_iff.mpr ⟨a, middle, hreturns, hback⟩, hafter⟩
  · intro error hsome
    obtain hfirst | ⟨hfirst, hsecond⟩ := Option.or_eq_some_iff.mp hsome
    · obtain ⟨after, hfails⟩ := hwork.fails error hfirst
      exact ⟨after, fails_bind_iff.mpr (.inl hfails)⟩
    · obtain ⟨a, middle, hreturns, hholds⟩ := hwork.returns hfirst
      obtain ⟨after, hfails⟩ := (hrest a middle hholds).fails error hsecond
      exact ⟨after, fails_bind_iff.mpr (.inr ⟨a, middle, hreturns, hfails⟩)⟩

theorem guarded {work : Step α} (hholds : Holds session phase bytes)
    (hwork : Ends work session refusal next out) :
    Ends (Serializer.guarded phase work) session refusal next out := by
  constructor
  · intro hnone
    obtain ⟨a, after, hreturns, hafter⟩ := hwork.returns hnone
    exact ⟨a, after, returns_guarded_iff.mpr ⟨hholds.poisoned, hholds.phase, hreturns⟩, hafter⟩
  · intro error hsome
    obtain ⟨after, hfails⟩ := hwork.fails error hsome
    exact ⟨_, fails_guarded_of_fails hholds hfails⟩

theorem enter (h : Holds session phase bytes) (next : Phase) :
    Ends (Serializer.enter next) session none next bytes :=
  of_returns (a := ()) (returns_enter_iff.mpr rfl) (h.entered next)

theorem put (h : Holds session phase bytes) (more : Bytes) :
    Ends (Serializer.put more) session none phase (bytes ++ more) :=
  of_returns (a := ()) (returns_put_iff.mpr (h.delivers rfl)) (h.grown more)

theorem emit (h : Holds session phase bytes) (emission : Emission) :
    Ends (Serializer.emit emission) session emission.refusal? phase (bytes ++ emission.bytes) := by
  rw [Emission.refusal?]
  cases hfault : emission.fault with
  | none => exact of_returns (a := ()) (returns_emit_iff.mpr (h.delivers hfault)) (h.grown _)
  | some fault =>
    have hwrite := Sink.write_iff.mpr ⟨h.takes emission.bytes, rfl⟩
    refine of_fails (session.grown emission.bytes) ?_
    rw [Serializer.emit, fails_get_bind_iff, hwrite, hfault]
    rfl

theorem putCount (h : Holds session phase bytes) (what : Counted) (count : Nat) :
    Ends (Serializer.putCount what count) session (what.refusal? count) phase
      (bytes ++ leBytes 2 count) := by
  rw [Serializer.putCount, Counted.refusal?]
  split
  · exact of_fails _ rfl
  · exact put h _

theorem counted (h : Holds session phase bytes) (what : Counted) (emitItem : α → Emission)
    (items : List α) (next : Phase) :
    Ends (do
        Serializer.putCount what items.length
        Serializer.emit (.concat (items.map emitItem))
        Serializer.enter next) session
      ((what.refusal? items.length).or (Emission.concat (items.map emitItem)).refusal?) next
      (bytes ++ (Emission.counted emitItem items).bytes) := by
  refine bind (putCount h what items.length) fun _ _ hcount => ?_
  have hitems := bind (emit hcount (.concat (items.map emitItem))) fun _ _ hafter =>
    enter hafter next
  rwa [Option.or_none, List.append_assoc] at hitems

-- The table is refused for its numbers before anything is written, and for its size after that.
theorem writeMetadata (h : Holds session .metadata []) (s : Store) (p : Program Value) :
    Ends (Serializer.writeMetadata p.functions) session
      ((Demand.distinctIds.refusal? s p).or (Demand.metadataSize.refusal? s p)) .header
      (leBytes 4 p.metadataEnd ++ (SymbolTable.emission p.functions.byId).bytes) := by
  rw [Demand.refusal?, Demand.refusal?, Counted.refusal?, SymbolTable.refusal?]
  cases hindexed : p.functions.indexed with
  | error error => exact of_fails _ (fails_writeMetadata_of_indexed h hindexed)
  | ok functions =>
    obtain ⟨hids, rfl⟩ := SymbolTable.indexed_eq_ok_iff.mp hindexed
    rw [Option.none_or]
    split
    next hlimit => exact of_fails _ (fails_writeMetadata_of_limit_lt h hindexed hlimit)
    next hlimit =>
      have hend : p.metadataEnd < UInt32.size :=
        Nat.lt_of_le_pred (by decide) (Nat.not_lt.mp hlimit)
      obtain ⟨word, after, hreturns, hafter⟩ :=
        exists_writeMetadata h hids (SymbolTable.fault_emission _) hend
      exact of_returns hreturns hafter

theorem writeHeader (h : Holds session .header bytes) (s : Store) (p : Program Value) :
    Ends (Serializer.writeHeader s p.tasks) session
      ((Demand.taskCount.refusal? s p).or (Demand.initialForms.refusal? s p)) .literals
      (bytes ++ (Emission.counted (TaskRecord.emission s.emission) p.tasks).bytes) :=
  guarded h (counted h .tasks (TaskRecord.emission s.emission) p.tasks .literals)

theorem writeLiterals (h : Holds session .literals bytes) (s : Store) (p : Program Value) :
    Ends (Serializer.writeLiterals s p.literals) session
      ((Demand.literalKinds.refusal? s p).or
        ((Demand.literalCount.refusal? s p).or (Demand.literalForms.refusal? s p))) .code
      (bytes ++ (Emission.counted s.emission p.literals).bytes) := by
  rw [Demand.refusal?]
  cases hvoid : p.literals.findIdx? Value.isVoid with
  | some index => exact of_fails _ (fails_writeLiterals_of_void h hvoid)
  | none =>
    rw [Serializer.writeLiterals, hvoid]
    exact guarded h (counted h .literals s.emission p.literals .code)

theorem writeCode (h : Holds session .code bytes) (code : List Instruction) :
    Ends (Serializer.writeCode code) session none .code
      (bytes ++ code.flatMap Instruction.encode) := by
  obtain ⟨after, hreturns, hafter⟩ := exists_writeCode code h
  exact of_returns hreturns hafter

theorem writeTo (h : Holds session .metadata []) (s : Store) (p : Program Value) :
    Ends (Program.writeTo s p) session (Demand.all.findSome? (Demand.refusal? s p)) .code
      (p.sections s) := by
  have hends := bind (writeMetadata h s p) fun _ _ h => bind (writeHeader h s p) fun _ _ h =>
    bind (writeLiterals h s p) fun _ _ h => writeCode h (p.code.map Prod.snd)
  simp only [Option.or_assoc] at hends
  simp only [Demand.all, findSome?_cons_or, List.findSome?_nil]
  exact hends

end Ends

end Serializer

namespace Program

open Serializer

theorem write_eq_of_refusal (s : Store) (p : Program Value) :
    (Demand.all.findSome? (Demand.refusal? s p) = none → p.write s = .ok (p.sections s)) ∧
      ∀ error, Demand.all.findSome? (Demand.refusal? s p) = some error →
        p.write s = .error error := by
  have hempty : Holds { sink := { bytes := #[] } } .metadata [] := ⟨rfl, rfl, rfl, rfl⟩
  have hends := Ends.writeTo hempty s p
  constructor
  · intro hnone
    obtain ⟨_, last, hreturns, hlast⟩ := hends.returns hnone
    unfold Returns at hreturns
    rw [write, hreturns]
    exact hlast.finish_eq
  · intro error hsome
    obtain ⟨_, hfails⟩ := hends.fails error hsome
    unfold Fails at hfails
    rw [write, hfails]

end Program

end Conductor
