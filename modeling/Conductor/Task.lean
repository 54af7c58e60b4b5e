import Conductor.Archive.Freeze

namespace Conductor

-- Which bound devices must report before a task runs.
inductive ReadPolicy where
  | all
  | any
deriving DecidableEq

def ReadPolicy.values : List ReadPolicy := [all, any]

def ReadPolicy.name : ReadPolicy → String
  | all => "All"
  | any => "Any"

-- What happens to queued device states when a new one arrives.
inductive OverwritePolicy where
  | clear
  | current
  | discard
  | none
deriving DecidableEq

def OverwritePolicy.values : List OverwritePolicy := [clear, current, discard, none]

def OverwritePolicy.name : OverwritePolicy → String
  | clear => "Clear"
  | current => "Current"
  | discard => "Discard"
  | none => "None"

inductive DeviceKind where
  | polling
  | interrupt
  | cursor
  | actuator
deriving DecidableEq

def DeviceKind.values : List DeviceKind := [polling, interrupt, cursor, actuator]

def DeviceKind.name : DeviceKind → String
  | polling => "Polling"
  | interrupt => "Interrupt"
  | cursor => "Cursor"
  | actuator => "Actuator"

structure Trigger where
  rule : List String := []
  id : String := ""
  priority : UInt16 := 1

-- A device as a task binds it. A negative polling period leaves the period to the driver.
structure DeviceBinding (α : Type) where
  name : String := ""
  type : Tag := .none
  controller : String := ""
  ports : OrderedMap String String := .empty
  initial : α
  isVtype : Bool := false
  readPolicy : ReadPolicy := .all
  overwritePolicy : OverwritePolicy := .none
  isYield : Bool := true
  pollingPeriod : Int32 := -1
  isConst : Bool := true
  ignoreWriteBacks : Bool := false
  kind : DeviceKind := .polling

-- A task with the place of its body in the code.
structure TaskRecord (α : Type) where
  name : String := ""
  bound : List (DeviceBinding α) := []
  offset : Int32 := 0
  inputs : List (DeviceBinding α) := []
  outputs : List (DeviceBinding α) := []
  controller : String := "MASTER"
  triggers : List Trigger := []

-- The bits of a 32-bit integer as a number.
def wordOfInt32 (n : Int32) : Nat := n.toUInt32.toNat

def int32OfWord (n : Nat) : Int32 := (UInt32.ofNat n).toInt32

namespace Trigger

open Archive

def emission (t : Trigger) : Emission :=
  .concat [.seq .text t.rule, .text t.id, .number 2 t.priority.toNat]

def read : Reader Trigger := do
  let rule ← Reader.seq Reader.text
  let id ← Reader.text
  let priority := UInt16.ofNat (← Reader.number 2)
  return { rule, id, priority }

end Trigger

namespace DeviceBinding

open Archive

variable {α : Type}

-- The ports are put out in the order of their names.
def emission (emit : α → Emission) (d : DeviceBinding α) : Emission :=
  .concat
    [.text d.name, .tag d.type, .text d.controller,
      .seq (fun pin => .text pin.1 ++ .text pin.2) d.ports.sorted.toList,
      emit d.initial, .bool d.isVtype, .choice ReadPolicy.values d.readPolicy,
      .choice OverwritePolicy.values d.overwritePolicy, .bool d.isYield,
      .number 4 (wordOfInt32 d.pollingPeriod), .bool d.isConst, .bool d.ignoreWriteBacks,
      .choice DeviceKind.values d.kind]

def read (value : Reader α) : Reader (DeviceBinding α) := do
  let name ← Reader.text
  let type ← Reader.tag
  let controller ← Reader.text
  let ports ← Reader.seq (do return (← Reader.text, ← Reader.text))
  let initial ← value
  let isVtype ← Reader.bool
  let readPolicy ← Reader.choice ReadPolicy.values
  let overwritePolicy ← Reader.choice OverwritePolicy.values
  let isYield ← Reader.bool
  let pollingPeriod := int32OfWord (← Reader.number 4)
  let isConst ← Reader.bool
  let ignoreWriteBacks ← Reader.bool
  let kind ← Reader.choice DeviceKind.values
  return {
    name, type, controller, ports := (OrderedMap.ofList ports).sorted, initial, isVtype,
    readPolicy, overwritePolicy, isYield, pollingPeriod, isConst, ignoreWriteBacks, kind }

def thaw (s : Store) (d : DeviceBinding Archived) : DeviceBinding Value × Store :=
  let (initial, s) := d.initial.thaw s
  ({ d with initial }, s)

end DeviceBinding

namespace TaskRecord

open Archive

variable {α : Type}

def emission (emit : α → Emission) (t : TaskRecord α) : Emission :=
  let devices := Emission.seq (DeviceBinding.emission emit)
  .concat
    [.text t.name, devices t.bound, .number 4 (wordOfInt32 t.offset), devices t.inputs,
      devices t.outputs, .text t.controller, .seq Trigger.emission t.triggers]

def read (value : Reader α) : Reader (TaskRecord α) := do
  let devices := Reader.seq (DeviceBinding.read value)
  let name ← Reader.text
  let bound ← devices
  let offset := int32OfWord (← Reader.number 4)
  let inputs ← devices
  let outputs ← devices
  let controller ← Reader.text
  let triggers ← Reader.seq Trigger.read
  return { name, bound, offset, inputs, outputs, controller, triggers }

def thaw (s : Store) (t : TaskRecord Archived) : TaskRecord Value × Store :=
  let (bound, s) := s.traverse DeviceBinding.thaw t.bound
  let (inputs, s) := s.traverse DeviceBinding.thaw t.inputs
  let (outputs, s) := s.traverse DeviceBinding.thaw t.outputs
  ({ t with bound, inputs, outputs }, s)

end TaskRecord

end Conductor
