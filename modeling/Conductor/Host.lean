import Conductor.Store.Basic

namespace Conductor

inductive HostType where
  | bool
  | int
  | float
  | string
  | value
  | list (t : HostType)
  | map (t : HostType)
deriving DecidableEq

namespace HostType

abbrev Data : HostType → Type
  | bool => Bool
  | int => Int64
  | float => Double
  | string => String
  | value => Value
  | list t => List (Data t)
  | map t => OrderedMap String (Data t)

-- The tag that data of the type have in a container.
def tag : HostType → Tag
  | bool => .bool
  | int => .int
  | float => .float
  | string => .string
  | value => .any
  | list _ => .list
  | map _ => .map

def toValue : (t : HostType) → Store → t.Data → Value × Store
  | bool, s, b => (.bool b, s)
  | int, s, n => (.int n, s)
  | float, s, x => (.float x, s)
  | string, s, text => (.string text, s)
  | value, s, v => (v, s)
  | list t, s, items =>
    let (items, s) := s.traverse t.toValue items
    s.allocateValue (.list { element := t.tag, items })
  | map t, s, entries =>
    let (entries, s) := s.traverse (fun s (key, data) =>
      let (v, s) := t.toValue s data
      ((key, v), s)) entries.toList
    s.allocateValue (.map { MapCell.new .map .string t.tag with entries := .ofList entries })

-- The result, or the refusal of a value that is not of the type.
def orRefuse {α : Type} (s : Store) (v : Value) : Option α → Except ValueError α
  | some data => .ok data
  | none => s.refuse .unpack v

-- The data that a value stands for. An integer is accepted for a double.
def ofValue : (t : HostType) → Store → Value → Except ValueError t.Data
  | bool, s, v => orRefuse s v v.asBool?
  | int, s, v => orRefuse s v v.asInt?
  | float, s, v => orRefuse s v v.asDouble?
  | string, s, v => orRefuse s v v.asString?
  | value, _, v => .ok v
  | list t, s, v => do
    let cell ← orRefuse s v (s.listCell? v)
    cell.items.mapM (t.ofValue s)
  | map t, s, v => do
    let cell ← orRefuse s v (s.mapCell? v)
    let entries ← cell.entries.toList.mapM fun entry => do
      return (entry.1, ← t.ofValue s entry.2)
    return .ofList entries

end HostType

end Conductor
