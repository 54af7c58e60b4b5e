import Conductor.OrderedMap
import Conductor.Tag
import Conductor.Value

namespace Conductor

structure ListCell where
  element : Tag
  sample : Option Value := none
  items : List Value := []
  modified : Bool := false

structure MapCell where
  object : Tag
  key : Tag
  element : Tag
  sample : Option (Value × Value) := none
  entries : OrderedMap String Value := .empty
  modified : Bool := false

namespace ListCell

-- Drops the contents and keeps everything else.
def clear (cell : ListCell) : ListCell := { cell with items := [] }

end ListCell

namespace MapCell

-- Drops the contents and keeps everything else.
def clear (cell : MapCell) : MapCell := { cell with entries := .empty }

end MapCell

inductive Container where
  | list (cell : ListCell)
  | map (cell : MapCell)

namespace Container

def object : Container → Tag
  | list _ => .list
  | map cell => cell.object

def key : Container → Tag
  | list _ => .none
  | map cell => cell.key

def element : Container → Tag
  | list cell => cell.element
  | map cell => cell.element

def modified : Container → Bool
  | list cell => cell.modified
  | map cell => cell.modified

def setModified (flag : Bool) : Container → Container
  | list cell => list { cell with modified := flag }
  | map cell => map { cell with modified := flag }

-- The declared sample: one element for a list, key and value for a map.
def sample : Container → List Value
  | list cell => cell.sample.toList
  | map cell =>
    match cell.sample with
    | some (key, value) => [key, value]
    | none => []

-- The stored elements without the keys.
def contents : Container → List Value
  | list cell => cell.items
  | map cell => cell.entries.values

def size (c : Container) : Nat := c.contents.length

-- Everything that the container holds on to.
def children (c : Container) : List Value := c.sample ++ c.contents

-- What stands for the type of the contents: the sample if there is one, else the first element.
def representative (c : Container) : List Value :=
  if c.sample ≠ [] then c.sample
  else
    match c with
    | list cell => cell.items.take 1
    | map cell =>
      match cell.entries.toList with
      | (key, value) :: _ => [.string key, value]
      | [] => []

def clear : Container → Container
  | list cell => list cell.clear
  | map cell => map cell.clear

-- What is printed for a container that is met inside itself.
def ellipsis : Container → String
  | list _ => "[...]"
  | map _ => "\x7b...\x7d"

-- The declared types and the size on one line.
def summary (c : Container) : String :=
  let kind :=
    match c with
    | list _ => "Vector"
    | map _ => "Map"
  kind ++ " \x7b object_type: " ++ c.object.label ++ ", key_type: " ++ c.key.label ++
    ", element_type: " ++ c.element.label ++ ", size: " ++ toString c.size ++ " \x7d"

end Container

-- The value of a scalar type that nothing was assigned to.
def Scalar.defaultValue : Scalar → Value
  | .bool => .bool false
  | .int => .int 0
  | .float => .float (Double.zero false)
  | .string => .string ""

namespace MapCell

-- The attributes that a map of this object type starts with.
def initialEntries : Tag → OrderedMap String Value
  | .device d =>
    ⟨d.attributes.map fun pair => (pair.1, pair.2.defaultValue), by
      have h : (d.attributes.map fun pair => (pair.1, pair.2.defaultValue)).map
          Prod.fst = d.attributes.map Prod.fst := by simp [Function.comp_def]
      exact h ▸ d.nodup_attributes⟩
  | _ => .empty

-- A fresh map. A device record has every attribute from the start.
def new (object key element : Tag) : MapCell :=
  { object, key, element, entries := initialEntries object }

-- A fresh record of a device.
def record (d : Device) : MapCell := new (.device d) .string .any

end MapCell

end Conductor
