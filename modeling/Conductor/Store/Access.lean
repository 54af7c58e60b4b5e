import Conductor.Store.Basic

namespace Conductor

-- The text under which a map keeps a key.
def Store.mapKey (s : Store) (key : Value) : Except ValueError String :=
  match key.text? with
  | some text => .ok text
  | none => s.refuse .mapKey key

-- The position that a key names in a list.
def Store.position (s : Store) (key : Value) (length : Nat) : Except ValueError Nat :=
  match key with
  | .int i =>
    if 0 ≤ i.toInt ∧ i.toInt < length then .ok i.toInt.toNat
    else .error (.indexOutOfBounds i length)
  | _ => s.refuse .index key

namespace MapCell

def get (cell : MapCell) (s : Store) (key : Value) : Except ValueError Value := do
  let text ← s.mapKey key
  match cell.entries.get? text with
  | some v => .ok v
  | none => .error (.keyNotFound text)

-- Overwrites the value of a key that is there. The old value comes first.
def assign (cell : MapCell) (s : Store) (key value : Value) :
    Except ValueError (Value × MapCell) := do
  let text ← s.mapKey key
  match cell.entries.get? text with
  | some old => .ok (old, { cell with entries := cell.entries.insert text value })
  | none => .error (.keyNotFound text)

def emplace (cell : MapCell) (s : Store) (key value : Value) : Except ValueError MapCell := do
  let text ← s.mapKey key
  .ok { cell with entries := cell.entries.insert text value, modified := true }

def contains (cell : MapCell) (s : Store) (key : Value) : Except ValueError Bool := do
  let text ← s.mapKey key
  .ok (cell.entries.contains text)

def erase (cell : MapCell) (s : Store) (key : Value) :
    Except ValueError (Option Value × MapCell) := do
  let text ← s.mapKey key
  match cell.entries.get? text with
  | some old => .ok (some old, { cell with entries := cell.entries.erase text, modified := true })
  | none => .ok (none, cell)

end MapCell

namespace ListCell

def get (cell : ListCell) (s : Store) (key : Value) : Except ValueError Value := do
  let i ← s.position key cell.items.length
  .ok (cell.items.getD i .void)

-- Overwrites the element at a position. The old element comes first.
def assign (cell : ListCell) (s : Store) (key value : Value) :
    Except ValueError (Value × ListCell) := do
  let i ← s.position key cell.items.length
  .ok (cell.items.getD i .void, { cell with items := cell.items.set i value })

-- As `assign`, and records the write.
def set (cell : ListCell) (s : Store) (key value : Value) :
    Except ValueError (Value × ListCell) := do
  let (old, cell) ← cell.assign s key value
  .ok (old, { cell with modified := true })

def append (cell : ListCell) (value : Value) : ListCell :=
  { cell with items := cell.items ++ [value], modified := true }

def pop (cell : ListCell) : Option Value × ListCell :=
  match cell.items.getLast? with
  | some last => (some last, { cell with items := cell.items.dropLast, modified := true })
  | none => (none, cell)

end ListCell

namespace Container

def get (c : Container) (s : Store) (key : Value) : Except ValueError Value :=
  match c with
  | list cell => cell.get s key
  | map cell => cell.get s key

def assign (c : Container) (s : Store) (key value : Value) :
    Except ValueError (Value × Container) :=
  match c with
  | list cell => (fun (old, cell) => (old, list cell)) <$> cell.assign s key value
  | map cell => (fun (old, cell) => (old, map cell)) <$> cell.assign s key value

end Container

end Conductor
