import Conductor.Device

namespace Conductor

inductive Tag where
  | void
  | bool
  | int
  | float
  | string
  | list
  | map
  | device (d : Device)
  | any
  | none
deriving DecidableEq

def Scalar.tag : Scalar → Tag
  | .bool => .bool
  | .int => .int
  | .float => .float
  | .string => .string

namespace Tag

-- The code of the first device. The codes of `any` and `none` follow the devices after a gap.
def deviceBase : Nat := 9

def code : Tag → Nat
  | void => 0
  | bool => 1
  | int => 2
  | float => 3
  | string => 4
  | list => 6
  | map => 7
  | device d => deviceBase + d.number
  | any => deviceBase + Device.all.length + 1
  | none => deviceBase + Device.all.length + 2

def ofCode? (code : Nat) : Option Tag :=
  match code with
  | 0 => some void
  | 1 => some bool
  | 2 => some int
  | 3 => some float
  | 4 => some string
  | 6 => some list
  | 7 => some map
  | 19 => some any
  | 20 => some none
  | _ =>
    if deviceBase ≤ code then (Device.ofNumber? (code - deviceBase)).map device else Option.none

def name : Tag → String
  | void => "void"
  | bool => "bool"
  | int => "int"
  | float => "float"
  | string => "string"
  | list => "list"
  | map => "map"
  | device d => d.name
  | any => "ANY"
  | none => "NONE"

-- The tag a program can write by this name. `none` has no written form.
def ofName? (name : String) : Option Tag :=
  match name with
  | "void" => some void
  | "bool" => some bool
  | "int" => some int
  | "float" => some float
  | "string" => some string
  | "list" => some list
  | "map" => some map
  | "ANY" => some any
  | _ => (Device.ofName? name).map device

def label : Tag → String
  | void => "Void"
  | bool => "Bool"
  | int => "Int"
  | float => "Float"
  | string => "String"
  | list => "List"
  | map => "Map"
  | device d => s!"Device({d.label})"
  | any => "Any"
  | none => "None"

def isNumeric : Tag → Bool
  | int | float => true
  | _ => false

def isContainer : Tag → Bool
  | list | map | device _ => true
  | _ => false

-- Equal tags or two numeric ones. `any` accepts only itself.
def compatible (a b : Tag) : Bool := a == b || (a.isNumeric && b.isNumeric)

theorem ofCode?_code (t : Tag) : ofCode? t.code = some t := by
  cases t with
  | device d => cases d <;> rfl
  | _ => rfl

theorem code_of_ofCode? {code : Nat} {t : Tag} (h : ofCode? code = some t) : code = t.code := by
  revert h
  fun_cases ofCode? code <;> intro h
  case case10 =>
    rw [if_pos ‹deviceBase ≤ code›] at h
    obtain ⟨d, hd, rfl⟩ := Option.map_eq_some_iff.mp h
    rw [Tag.code, Device.number_of_ofNumber? hd]
    omega
  case case11 =>
    rw [if_neg ‹¬deviceBase ≤ code›] at h
    cases h
  all_goals exact Option.some.inj h ▸ rfl

theorem code_lt (t : Tag) : t.code < 21 := by
  cases t with
  | device d => cases d <;> decide
  | _ => decide

theorem compatible_self (t : Tag) : t.compatible t := by simp [compatible]

theorem compatible_comm (a b : Tag) : a.compatible b = b.compatible a := by
  simp only [compatible, Bool.and_comm]
  congr 1
  exact Bool.beq_comm

end Tag

end Conductor
