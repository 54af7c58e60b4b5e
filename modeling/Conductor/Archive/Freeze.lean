import Conductor.Archive.Tree
import Conductor.Store.Path

namespace Conductor

namespace Store

-- The tree of a value inside the containers of a path.
def freezeWithin (s : Store) (path : List Address) : Value → Except FreezeError Archived
  | .void => .ok .void
  | .bool b => .ok (.bool b)
  | .int n => .ok (.int n)
  | .float x => .ok (.float x)
  | .string text => .ok (.string text)
  | .container a =>
    if _h : s.Enterable path a then
      match s.fetch a with
      | .list cell => do
        let sample ← cell.sample.toList.mapM (s.freezeWithin (a :: path))
        let items ← cell.items.mapM (s.freezeWithin (a :: path))
        return .list cell.element sample items
      | .map cell =>
        match cell.object with
        | .device d => .error (.unrepresentable (.device d))
        | _ => do
          let entries ← cell.entries.toList.mapM fun entry => do
            return (entry.1, ← s.freezeWithin (a :: path) entry.2)
          let sample ← (Container.map cell).sample.mapM (s.freezeWithin (a :: path))
          return .map cell.key cell.element sample entries
    else .error .cycle
termination_by s.room path
decreasing_by all_goals exact room_cons_lt _h

def freeze (s : Store) (v : Value) : Except FreezeError Archived := s.freezeWithin [] v

-- The archive of a value. A value that cannot be frozen puts out nothing.
def emission (s : Store) (v : Value) : Archive.Emission :=
  match s.freeze v with
  | .ok tree => { bytes := tree.encode }
  | .error fault => { bytes := [], fault := some fault }

end Store

namespace Archived

mutual

def thaw (s : Store) : Archived → Value × Store
  | void => (.void, s)
  | bool b => (.bool b, s)
  | int n => (.int n, s)
  | float x => (.float x, s)
  | string text => (.string text, s)
  | list element sample items =>
    let (samples, s) := thawAll s sample
    let (items, s) := thawAll s items
    s.allocateValue (.list { element, sample := samples.getLast?, items })
  | map key element sample entries =>
    let (samples, s) := thawAll s sample
    let (entries, s) := thawEntries s entries
    let sample :=
      match samples with
      | key :: value :: _ => some (key, value)
      | _ => none
    s.allocateValue (.map { object := .map, key, element, sample, entries := .ofList entries })

def thawAll (s : Store) : List Archived → List Value × Store
  | [] => ([], s)
  | node :: rest =>
    let (head, s) := thaw s node
    let (tail, s) := thawAll s rest
    (head :: tail, s)

def thawEntries (s : Store) : List (String × Archived) → List (String × Value) × Store
  | [] => ([], s)
  | (key, node) :: rest =>
    let (head, s) := thaw s node
    let (tail, s) := thawEntries s rest
    ((key, head) :: tail, s)

end

end Archived

end Conductor
