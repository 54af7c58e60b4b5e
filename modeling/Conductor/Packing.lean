import Conductor.Store.Access
import Conductor.Store.Compatible

namespace Conductor.Device

-- The record with one reading put in, if the device has the attribute and the type fits.
def packReading (d : Device) (s : Store) (cell : MapCell) (reading : String × Value) :
    Except ValueError MapCell :=
  match d.attribute? reading.1 with
  | none => .error (.keyNotFound reading.1)
  | some declared =>
    if s.compatible declared.defaultValue reading.2 then
      cell.emplace s (.string reading.1) reading.2
    else .error (.undefined .pack declared.tag (some (s.tag reading.2)))

-- A fresh record of the device with the readings put in one after the other.
def pack (d : Device) (s : Store) (readings : List (String × Value)) :
    Except ValueError (Value × Store) := do
  let cell ← readings.foldlM (d.packReading s) (.record d)
  return s.allocateValue (.map cell)

-- The attributes of a record in declaration order.
def unpack (s : Store) (v : Value) : Except ValueError (Device × List (String × Value)) :=
  match s.mapCell? v with
  | some cell =>
    match cell.object with
    | .device d => do
      let attributes ← d.attributes.mapM fun pair => do
        return (pair.1, ← cell.get s (.string pair.1))
      return (d, attributes)
    | _ => s.refuse .unpack v
  | none => s.refuse .unpack v

end Conductor.Device
