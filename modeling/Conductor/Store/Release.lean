import Conductor.Store.Reach
import Std.Data.HashSet

namespace Conductor.Store

-- The number of living containers.
def living (s : Store) : Nat := s.cells.countP Option.isSome

-- The containers that something holds.
def referenced (s : Store) (held : List Value) : List Address :=
  held.filterMap Value.address? ++
    s.cells.toList.flatMap fun cell => (cell.map Container.references).getD []

-- Releases the containers that nothing holds now.
def releaseOnce (s : Store) (held : List Value) : Store :=
  let referenced := Std.HashSet.ofList (s.referenced held)
  ⟨s.cells.mapIdx fun i cell => if referenced.contains ⟨i⟩ then cell else none⟩

-- Containers that hold each other in a ring keep each other.
def release (s : Store) (held : List Value) : Store :=
  let after := s.releaseOnce held
  if _h : after.living < s.living then after.release held else s
termination_by s.living

end Conductor.Store
