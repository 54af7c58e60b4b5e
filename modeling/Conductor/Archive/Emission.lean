import Conductor.Archive.Fault

namespace Conductor.Archive

-- A text is led by the number of its bytes.
def textBytes (s : String) : Bytes := leBytes 8 (Utf8.encode s).length ++ Utf8.encode s

-- A writer may run out of room in the bytes before a fault comes up.
structure Emission where
  bytes : Bytes
  fault : Option FreezeError := none

namespace Emission

variable {α : Type}

def empty : Emission := { bytes := [] }

-- Nothing follows a fault.
def append (first second : Emission) : Emission :=
  match first.fault with
  | some _ => first
  | none => { bytes := first.bytes ++ second.bytes, fault := second.fault }

instance : Append Emission := ⟨append⟩

def concat (parts : List Emission) : Emission := parts.foldr append empty

def number (width n : Nat) : Emission := { bytes := leBytes width n }

def bool (b : Bool) : Emission := number 1 b.toNat

def text (s : String) : Emission := { bytes := textBytes s }

def tag (t : Tag) : Emission := number 4 t.code

-- One of the listed alternatives, by its place in the list.
def choice [DecidableEq α] (values : List α) (value : α) : Emission :=
  number 4 (values.idxOf value)

def seq (emit : α → Emission) (items : List α) : Emission :=
  concat (number 8 items.length :: items.map emit)

end Emission

end Conductor.Archive
