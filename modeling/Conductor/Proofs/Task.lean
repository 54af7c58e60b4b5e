import Conductor.Proofs.Archive.Fields
import Conductor.Proofs.OrderedMap
import Conductor.Proofs.Related
import Conductor.Proofs.Store.Alike
import Conductor.Task

namespace Conductor

open Archive

variable {α β γ : Type}

theorem int32OfWord_wordOfInt32 (n : Int32) : int32OfWord (wordOfInt32 n) = n := by
  rw [int32OfWord, wordOfInt32, UInt32.ofNat_toNat]
  rfl

theorem wordOfInt32_lt (n : Int32) : wordOfInt32 n < byteCapacity 4 := n.toUInt32.toNat_lt

-- Elements that each read back as something related to them.
theorem Archive.Carries.exists_seq {R : α → β → Prop} {emit : α → Emission} {read : Reader β}
    {items : List α} (hlength : items.length < byteCapacity 8)
    (h : ∀ item ∈ items, ∃ value, Carries (emit item) read value ∧ R item value) :
    ∃ values, Carries (.seq emit items) (Reader.seq read) values ∧ List.Forall₂ R items values := by
  obtain ⟨values, hcarries, hrelated⟩ := exists_forall₂_and items h
  exact ⟨values, .seq hlength hcarries, hrelated⟩

namespace Trigger

-- A trigger whose texts and whose rule a machine word can measure.
structure WordSized (t : Trigger) : Prop where
  count : t.rule.length < byteCapacity 8
  rule : ∀ text ∈ t.rule, Archive.WordSized text
  id : Archive.WordSized t.id

theorem carries {t : Trigger} (h : t.WordSized) : Carries t.emission read t := by
  refine .concat_cons (.seq_self h.count fun text hmem => .text (h.rule text hmem)) ?_
  refine .concat_cons (.text h.id) (.concat_cons (.number t.priority.toNat_lt) ?_)
  rw [UInt16.ofNat_toNat]
  exact .concat_nil t

end Trigger

namespace DeviceBinding

structure WordSized (d : DeviceBinding α) : Prop where
  name : Archive.WordSized d.name
  controller : Archive.WordSized d.controller
  count : d.ports.size < byteCapacity 8
  ports : ∀ pin ∈ d.ports.toList, Archive.WordSized pin.1 ∧ Archive.WordSized pin.2

-- The same device, up to the order of the ports, with an initial value that stands for the other.
structure Same (R : α → β → Prop) (d : DeviceBinding α) (e : DeviceBinding β) : Prop where
  name : d.name = e.name
  type : d.type = e.type
  controller : d.controller = e.controller
  ports : ∀ pin, d.ports.get? pin = e.ports.get? pin
  initial : R d.initial e.initial
  isVtype : d.isVtype = e.isVtype
  readPolicy : d.readPolicy = e.readPolicy
  overwritePolicy : d.overwritePolicy = e.overwritePolicy
  isYield : d.isYield = e.isYield
  pollingPeriod : d.pollingPeriod = e.pollingPeriod
  isConst : d.isConst = e.isConst
  ignoreWriteBacks : d.ignoreWriteBacks = e.ignoreWriteBacks
  kind : d.kind = e.kind

theorem carries_ports {d : DeviceBinding α} (h : d.WordSized) :
    Carries (.seq (fun pin => .text pin.1 ++ .text pin.2) d.ports.sorted.toList)
      (Reader.seq (do return (← Reader.text, ← Reader.text))) d.ports.sorted.toList := by
  have hperm := d.ports.toList_sorted_perm
  refine .seq_self ?_ fun pin hmem => ?_
  · rw [hperm.length_eq]
    exact h.count
  · obtain ⟨hname, hvalue⟩ := h.ports pin (hperm.mem_iff.mp hmem)
    exact .bind (.text hname) (.last (.text hvalue) (.pure pin))

theorem exists_carries {R : α → β → Prop} {d : DeviceBinding α} (h : d.WordSized)
    {emit : α → Emission} {value : Reader β}
    (hinitial : ∃ initial, Carries (emit d.initial) value initial ∧ R d.initial initial) :
    ∃ e, Carries (d.emission emit) (read value) e ∧ Same R d e := by
  obtain ⟨initial, hcarries, hrelated⟩ := hinitial
  have hread : d.readPolicy ∈ ReadPolicy.values := by cases d.readPolicy <;> decide
  have hoverwrite : d.overwritePolicy ∈ OverwritePolicy.values := by
    cases d.overwritePolicy <;> decide
  have hkind : d.kind ∈ DeviceKind.values := by cases d.kind <;> decide
  refine ⟨_, .concat_cons (.text h.name) <| .concat_cons (.tag d.type) <|
    .concat_cons (.text h.controller) <| .concat_cons (carries_ports h) <|
    .concat_cons hcarries <| .concat_cons (.bool d.isVtype) <|
    .concat_cons (.choice hread (by decide)) <| .concat_cons (.choice hoverwrite (by decide)) <|
    .concat_cons (.bool d.isYield) <| .concat_cons (.number (wordOfInt32_lt _)) <|
    .concat_cons (.bool d.isConst) <| .concat_cons (.bool d.ignoreWriteBacks) <|
    .concat_cons (.choice hkind (by decide)) <| .concat_nil _, ?_⟩
  have hports (pin : String) : d.ports.get? pin =
      (OrderedMap.ofList d.ports.sorted.toList).sorted.get? pin := by
    rw [OrderedMap.ofList_toList, OrderedMap.get?_sorted, OrderedMap.get?_sorted]
  exact {
    name := rfl, type := rfl, controller := rfl, ports := hports, initial := hrelated
    isVtype := rfl, readPolicy := rfl, overwritePolicy := rfl, isYield := rfl
    pollingPeriod := (int32OfWord_wordOfInt32 _).symm, isConst := rfl, ignoreWriteBacks := rfl
    kind := rfl }

theorem Same.imp {R S : α → β → Prop} {d : DeviceBinding α} {e : DeviceBinding β} (h : Same R d e)
    (himp : ∀ a b, R a b → S a b) : Same S d e := { h with initial := himp _ _ h.initial }

theorem persistent_same {S : Store → α → β → Prop} (h : Store.Persistent S) :
    Store.Persistent fun s => Same (S s) :=
  fun s s' _ _ hext hsame => hsame.imp fun a b => h s s' a b hext

theorem builds_thaw {R : α → Archived → Prop} {S : Store → α → Value → Prop} {d : DeviceBinding α}
    {e : DeviceBinding Archived} (h : Same R d e)
    (hbuilds : ∀ v tree, R v tree → Store.Builds S v fun t => tree.thaw t) :
    Store.Builds (fun t => Same (S t)) d fun t => e.thaw t := by
  intro t
  obtain ⟨hgrow, hinitial⟩ := hbuilds _ _ h.initial t
  exact ⟨hgrow, { h with initial := hinitial }⟩

end DeviceBinding

namespace TaskRecord

structure WordSized (t : TaskRecord α) : Prop where
  name : Archive.WordSized t.name
  boundCount : t.bound.length < byteCapacity 8
  bound : ∀ d ∈ t.bound, d.WordSized
  inputsCount : t.inputs.length < byteCapacity 8
  inputs : ∀ d ∈ t.inputs, d.WordSized
  outputsCount : t.outputs.length < byteCapacity 8
  outputs : ∀ d ∈ t.outputs, d.WordSized
  controller : Archive.WordSized t.controller
  triggersCount : t.triggers.length < byteCapacity 8
  triggers : ∀ trigger ∈ t.triggers, trigger.WordSized

-- Every device that the task binds, reads or writes.
def devices (t : TaskRecord α) : List (DeviceBinding α) := t.bound ++ t.inputs ++ t.outputs

-- The same task with devices that stand for its devices.
structure Same (R : α → β → Prop) (t : TaskRecord α) (u : TaskRecord β) : Prop where
  name : t.name = u.name
  bound : List.Forall₂ (DeviceBinding.Same R) t.bound u.bound
  offset : t.offset = u.offset
  inputs : List.Forall₂ (DeviceBinding.Same R) t.inputs u.inputs
  outputs : List.Forall₂ (DeviceBinding.Same R) t.outputs u.outputs
  controller : t.controller = u.controller
  triggers : t.triggers = u.triggers

theorem exists_carries {R : α → β → Prop} {t : TaskRecord α} (h : t.WordSized)
    {emit : α → Emission} {value : Reader β}
    (hinitial : ∀ d ∈ t.devices, ∃ initial, Carries (emit d.initial) value initial ∧
      R d.initial initial) :
    ∃ u, Carries (t.emission emit) (read value) u ∧ Same R t u := by
  simp only [devices, List.forall_mem_append] at hinitial
  obtain ⟨⟨hboundInitial, hinputsInitial⟩, houtputsInitial⟩ := hinitial
  obtain ⟨bound, hbound, hboundSame⟩ := Carries.exists_seq h.boundCount fun d hmem =>
    DeviceBinding.exists_carries (h.bound d hmem) (hboundInitial d hmem)
  obtain ⟨inputs, hinputs, hinputsSame⟩ := Carries.exists_seq h.inputsCount fun d hmem =>
    DeviceBinding.exists_carries (h.inputs d hmem) (hinputsInitial d hmem)
  obtain ⟨outputs, houtputs, houtputsSame⟩ := Carries.exists_seq h.outputsCount fun d hmem =>
    DeviceBinding.exists_carries (h.outputs d hmem) (houtputsInitial d hmem)
  refine ⟨_, .concat_cons (.text h.name) <| .concat_cons hbound <|
    .concat_cons (.number (wordOfInt32_lt _)) <| .concat_cons hinputs <|
    .concat_cons houtputs <| .concat_cons (.text h.controller) <|
    .concat_cons
      (.seq_self h.triggersCount fun trigger hmem => Trigger.carries (h.triggers trigger hmem)) <|
    .concat_nil _, ?_⟩
  exact {
    name := rfl, bound := hboundSame, offset := (int32OfWord_wordOfInt32 _).symm
    inputs := hinputsSame, outputs := houtputsSame, controller := rfl, triggers := rfl }

theorem Same.imp {R S : α → β → Prop} {t : TaskRecord α} {u : TaskRecord β} (h : Same R t u)
    (himp : ∀ a b, R a b → S a b) : Same S t u :=
  { h with
    bound := h.bound.imp fun _ _ h => h.imp himp
    inputs := h.inputs.imp fun _ _ h => h.imp himp
    outputs := h.outputs.imp fun _ _ h => h.imp himp }

theorem builds_thaw {R : α → Archived → Prop} {S : Store → α → Value → Prop} {t : TaskRecord α}
    {u : TaskRecord Archived} (h : Same R t u) (hkeep : Store.Persistent S)
    (hbuilds : ∀ v tree, R v tree → Store.Builds S v fun s => tree.thaw s) :
    Store.Builds (fun s => Same (S s)) t fun s => u.thaw s := by
  have hdevices {ds : List (DeviceBinding α)} {es : List (DeviceBinding Archived)}
      (h : List.Forall₂ (DeviceBinding.Same R) ds es) :
      Store.Builds (fun s => List.Forall₂ (DeviceBinding.Same (S s))) ds
        fun s => s.traverse DeviceBinding.thaw es :=
    Store.builds_traverse (DeviceBinding.persistent_same hkeep)
      (h.imp fun d e h => DeviceBinding.builds_thaw h hbuilds)
  have hkeepAll := Store.persistent_forall₂ (DeviceBinding.persistent_same hkeep)
  intro s
  obtain ⟨hgrow, hbound, hinputs⟩ := (hdevices h.bound).followed hkeepAll (hdevices h.inputs) s
  obtain ⟨hgrowOutputs, houtputs⟩ := hdevices h.outputs
    ((s.traverse DeviceBinding.thaw u.bound).2.traverse DeviceBinding.thaw u.inputs).2
  exact ⟨hgrow.trans hgrowOutputs, {
    h with
    bound := hkeepAll _ _ _ _ hgrowOutputs hbound
    inputs := hkeepAll _ _ _ _ hgrowOutputs hinputs
    outputs := houtputs }⟩

theorem persistent_same {S : Store → α → β → Prop} (h : Store.Persistent S) :
    Store.Persistent fun s => Same (S s) :=
  fun s s' _ _ hext hsame => hsame.imp fun a b => h s s' a b hext

end TaskRecord

end Conductor
