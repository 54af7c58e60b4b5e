import Conductor.Store.Access

namespace Conductor

inductive Form where
  | list
  | map

@[reducible]
def Container.form : Container → Form
  | list _ => .list
  | map _ => .map

-- What is asked of a container of some form, with the type of the answer. `look` stands for the
-- readings without a key, which tell from a copy.
inductive Request : Form → Type → Type where
  | look {form : Form} : Request form Container
  | access {form : Form} (key : Value) : Request form Value
  | get {form : Form} (key : Value) : Request form Value
  | assign {form : Form} (key value : Value) : Request form Value
  | clear {form : Form} : Request form Unit
  | mark {form : Form} (flag : Bool) : Request form Unit
  | contains (key : Value) : Request .map Bool
  | emplace (key value : Value) : Request .map Unit
  | erase (key : Value) : Request .map (Option Value)
  | set (key value : Value) : Request .list Value
  | append (value : Value) : Request .list Unit
  | pop : Request .list (Option Value)

-- A computation on a cell. What it did to the cell stays when it fails.
abbrev Request.Step (σ : Type) := ExceptT ValueError (StateM σ)

namespace MapCell

-- The text and the value of a key that has to be there.
def slot (cell : MapCell) (s : Store) (key : Value) : Except ValueError (String × Value) := do
  let text ← s.mapKey key
  match cell.entries.get? text with
  | some value => .ok (text, value)
  | none => .error (.keyNotFound text)

def locate (s : Store) (key : Value) : Request.Step MapCell (String × Value) := do
  (← getThe MapCell).slot s key

def write (text : String) (value : Value) : Request.Step MapCell Unit :=
  modify fun cell => { cell with entries := cell.entries.insert text value }

-- Takes out a key that may be there.
def remove (text : String) : Request.Step MapCell (Option Value) := do
  let removed := (← getThe MapCell).entries.get? text
  modify fun cell => { cell with entries := cell.entries.erase text }
  return removed

def mark (flag : Bool) : Request.Step MapCell Unit :=
  modify fun cell => { cell with modified := flag }

def perform {α : Type} (s : Store) : Request .map α → Request.Step MapCell α
  | .look => return .map (← getThe MapCell)
  | .access key | .get key => return (← locate s key).2
  | .assign key value => do
    let (text, old) ← locate s key
    write text value
    return old
  | .clear => modify clear
  | .mark flag => mark flag
  | .contains key => do
    let text ← s.mapKey key
    return (← getThe MapCell).entries.contains text
  | .emplace key value => do
    let text ← s.mapKey key
    write text value
    mark true
  | .erase key => do
    let text ← s.mapKey key
    let removed ← remove text
    if removed.isSome then mark true
    return removed

end MapCell

namespace ListCell

-- The position and the element that a key names.
def slot (cell : ListCell) (s : Store) (key : Value) : Except ValueError (Nat × Value) := do
  let i ← s.position key cell.items.length
  return (i, cell.items.getD i .void)

def locate (s : Store) (key : Value) : Request.Step ListCell (Nat × Value) := do
  (← getThe ListCell).slot s key

def write (i : Nat) (value : Value) : Request.Step ListCell Unit :=
  modify fun cell => { cell with items := cell.items.set i value }

-- Takes out the last element if there is one.
def removeLast : Request.Step ListCell (Option Value) := do
  let last := (← getThe ListCell).items.getLast?
  modify fun cell => { cell with items := cell.items.dropLast }
  return last

def mark (flag : Bool) : Request.Step ListCell Unit :=
  modify fun cell => { cell with modified := flag }

def perform {α : Type} (s : Store) : Request .list α → Request.Step ListCell α
  | .look => return .list (← getThe ListCell)
  | .access key | .get key => return (← locate s key).2
  | .assign key value => do
    let (i, old) ← locate s key
    write i value
    return old
  | .clear => modify clear
  | .mark flag => mark flag
  | .set key value => do
    let (i, old) ← locate s key
    write i value
    mark true
    return old
  | .append value => do
    modify fun cell => { cell with items := cell.items ++ [value] }
    mark true
  | .pop => do
    let last ← removeLast
    if last.isSome then mark true
    return last

end ListCell

namespace Container

-- The answer or the error, and the container as the last step left it.
def perform {α : Type} (s : Store) :
    (c : Container) → Request c.form α → Except ValueError α × Container
  | list cell, request => ((ListCell.perform s request).run cell).map id list
  | map cell, request => ((MapCell.perform s request).run cell).map id map

end Container

-- Asks the container at an address, which keeps what was done to it.
def Store.ask {α : Type} (s : Store) (a : Address) (c : Container) (request : Request c.form α) :
    Except ValueError α × Store :=
  (c.perform s request).map id (s.put a)

end Conductor
