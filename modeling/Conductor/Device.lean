namespace Conductor

-- The types an attribute can have.
inductive Scalar where
  | bool
  | int
  | float
  | string
deriving DecidableEq

inductive Device where
  | dht11
  | button
  | lineWriter
  | mouse
  | dcMotor
  | audioPlayer
  | keyboard
  | light
  | potentiometer
deriving DecidableEq

namespace Device

-- Every device. Its place in the list is its number.
def all : List Device :=
  [dht11, button, lineWriter, mouse, dcMotor, audioPlayer, keyboard, light, potentiometer]

def name : Device → String
  | dht11 => "DHT11"
  | button => "BUTTON"
  | lineWriter => "LINE_WRITER"
  | mouse => "MOUSE"
  | dcMotor => "DC_MOTOR"
  | audioPlayer => "AUDIO_PLAYER"
  | keyboard => "KEYBOARD"
  | light => "LIGHT"
  | potentiometer => "POTENTIOMETER"

-- The name without separators, as a listing of types writes it.
def label : Device → String
  | dht11 => "Dht11"
  | button => "Button"
  | lineWriter => "LineWriter"
  | mouse => "Mouse"
  | dcMotor => "DcMotor"
  | audioPlayer => "AudioPlayer"
  | keyboard => "Keyboard"
  | light => "Light"
  | potentiometer => "Potentiometer"

def number (d : Device) : Nat := all.idxOf d

def ofNumber? (n : Nat) : Option Device := all[n]?

def ofName? (name : String) : Option Device := all.find? (·.name == name)

-- The attributes in declaration order.
def attributes : Device → List (String × Scalar)
  | dht11 => [("temperature", .float), ("humidity", .float)]
  | button => [("pressed", .bool)]
  | lineWriter => [("msg", .string)]
  | mouse =>
    [("x", .float), ("y", .float), ("leftClick", .bool), ("rightClick", .bool),
      ("middleClick", .bool), ("scrollX", .int), ("scrollY", .int)]
  | dcMotor => [("pin", .int), ("pwr", .float)]
  | audioPlayer => [("file", .string), ("paused", .bool), ("volume", .int)]
  | keyboard => [("key", .string)]
  | light => [("on", .bool)]
  | potentiometer => [("value", .float)]

def attribute? (d : Device) (name : String) : Option Scalar := d.attributes.lookup name

theorem mem_all (d : Device) : d ∈ all := by cases d <;> decide

theorem number_lt (d : Device) : d.number < all.length := List.idxOf_lt_length_of_mem d.mem_all

theorem ofNumber?_number (d : Device) : ofNumber? d.number = some d := by cases d <;> rfl

theorem number_of_ofNumber? {n : Nat} {d : Device} (h : ofNumber? n = some d) : d.number = n := by
  obtain ⟨hn, rfl⟩ := List.getElem?_eq_some_iff.mp h
  have hnodup : all.Nodup := by decide
  exact hnodup.idxOf_getElem n hn

theorem ofName?_name (d : Device) : ofName? d.name = some d := by cases d <;> decide +kernel

theorem nodup_attributes (d : Device) : (d.attributes.map Prod.fst).Nodup := by
  cases d <;> decide +kernel

end Device

end Conductor
