import Conductor.Store.Release

namespace Conductor

-- The most slots a handle can tell apart.
def maxSlotLimit : Nat := UInt32.size - 1

-- A threshold of zero turns the hint to collect off.
structure RegistrySettings where
  initialCapacity : Nat := 256
  collectThreshold : Nat := 4096
  maxSlots : Nat := maxSlotLimit

inductive RegistryError where
  | noSlots
  | tooManySlots
  | capacityAboveSlots
  | full
deriving DecidableEq

def RegistryError.message : RegistryError → String
  | noSlots => "max_slots must be > 0"
  | tooManySlots => "max_slots too large for handle index"
  | capacityAboveSlots => "initial_capacity must not exceed max_slots"
  | full => "heap registry is full"

def RegistrySettings.check (settings : RegistrySettings) : Except RegistryError Unit :=
  if settings.maxSlots = 0 then .error .noSlots
  else if maxSlotLimit < settings.maxSlots then .error .tooManySlots
  else if settings.maxSlots < settings.initialCapacity then .error .capacityAboveSlots
  else .ok ()

structure Handle where
  index : Nat
  generation : UInt32
deriving DecidableEq

structure Slot where
  generation : UInt32
  entry : Option Address

namespace Slot

-- The container that the slot remembers, if it lives.
def resident? (slot : Slot) (s : Store) : Option Address :=
  slot.entry.filter fun a => (s.find? a).isSome

-- Whether the slot remembers a container that is gone.
def isDead (slot : Slot) (s : Store) : Bool := slot.entry.isSome && (slot.resident? s).isNone

end Slot

-- The free slots are recycled last in, first out.
structure Registry where
  settings : RegistrySettings
  slots : Array Slot := #[]
  free : List Nat := []
  sinceCollect : Nat := 0

-- What a collection met: registered containers that are reachable, containers that it emptied, and
-- slots that it recycled.
structure CollectStats where
  live : Nat
  cleared : Nat
  freed : Nat
deriving DecidableEq

namespace Registry

def new (settings : RegistrySettings) : Except RegistryError Registry := do
  settings.check
  return { settings }

def initial : Registry := { settings := {} }

-- Remembers a container. Every attempt counts towards the hint to collect.
def register (r : Registry) (a : Address) : Except RegistryError Handle × Registry :=
  let r := { r with sinceCollect := r.sinceCollect + 1 }
  match r.free with
  | index :: free =>
    let generation := (r.slots[index]?.map Slot.generation).getD 0
    (.ok ⟨index, generation⟩,
      { r with free, slots := r.slots.setIfInBounds index ⟨generation, some a⟩ })
  | [] =>
    if r.slots.size < r.settings.maxSlots then
      (.ok ⟨r.slots.size, 0⟩, { r with slots := r.slots.push ⟨0, some a⟩ })
    else (.error .full, r)

def get? (r : Registry) (s : Store) (handle : Handle) : Option Value := do
  let slot ← r.slots[handle.index]?
  if slot.generation = handle.generation then .container <$> slot.resident? s else none

-- The registered containers that are alive, once for every slot.
def residents (r : Registry) (s : Store) : List Address :=
  r.slots.toList.filterMap fun slot => slot.resident? s

def live (r : Registry) (s : Store) : Nat := (r.residents s).length

def shouldCollect (r : Registry) : Bool :=
  r.settings.collectThreshold != 0 && decide (r.settings.collectThreshold ≤ r.sinceCollect)

-- The slots whose container is gone, by ascending index.
def deadSlots (r : Registry) (s : Store) : List Nat :=
  (List.range r.slots.size).filter fun i => (r.slots[i]?.map fun slot => slot.isDead s).getD false

-- Frees the slots whose container is gone. Their handles go stale.
def recycle (r : Registry) (s : Store) : Registry :=
  { r with
    slots := r.slots.map fun slot =>
      if slot.isDead s then ⟨slot.generation + 1, none⟩ else slot
    free := (r.deadSlots s).reverse ++ r.free }

def collect (r : Registry) (s : Store) (roots held : List Value) :
    CollectStats × Registry × Store :=
  let marked := s.reach roots
  let (reachable, garbage) := (r.residents s).partition fun a => decide (a ∈ marked)
  let emptied := garbage.foldl (fun s a => s.modify a Container.clear) s
  let after := emptied.release (roots ++ held)
  let stats := ⟨reachable.length, garbage.length, (r.deadSlots after).length⟩
  (stats, { r.recycle after with sinceCollect := 0 }, after)

end Registry

end Conductor
