import Conductor.Artifact.Program
import Conductor.Store.Display

namespace Conductor.Listing

-- The most characters of a literal that are shown.
def literalLimit : Nat := 60

-- The text of a literal, quoted if it is a text, and cut off with three points if it is long.
def literal (s : Store) (v : Value) : String :=
  let text :=
    match v with
    | .string text => Text.quoted text
    | v => s.display v
  if literalLimit < text.length then String.ofList (text.toList.take literalLimit) ++ "..."
  else text

def function (entry : String × Function) : String :=
  let head := s!"[{entry.2.id}] {entry.1}"
  if entry.2.dependencies.isEmpty then head
  else head ++ " -> " ++ ", ".intercalate entry.2.dependencies

def device (d : DeviceBinding Value) : String :=
  s!"    - {d.name}: {d.type.name} on {d.controller} [{d.kind.name}, {d.readPolicy.name}]"

def trigger (t : Trigger) : String :=
  s!"    ! {t.id} (priority {t.priority}): " ++ " ".intercalate t.rule

def task (t : TaskRecord Value) : List String :=
  let head :=
    s!"{t.name} @{t.offset.toInt} on {t.controller} ({t.bound.length} bound, " ++
      s!"{t.inputs.length} in, {t.outputs.length} out)"
  head :: t.bound.map device ++ t.triggers.map trigger

-- What an instruction refers to.
def note? (s : Store) (p : Program Value) (i : Instruction) : Option String :=
  let first := (i.operands.headD 0).toNat
  match i.opcode with
  | .push =>
    match p.literals[first]? with
    | some v => some (literal s v)
    | none => some "<missing literal>"
  | .call => p.functions.name? (UInt16.ofNat first)
  | _ => i.target?.map fun target => s!"-> {target}"

-- A number on the right of five places.
def offset (n : Nat) : String :=
  let text := toString n
  "".pushn ' ' (5 - text.length) ++ text

def instruction (s : Store) (p : Program Value) (placed : Placed) : String :=
  let head := s!"{offset placed.1}: {placed.2.text}"
  match note? s p placed.2 with
  | some note => s!"{head}  ; {note}"
  | none => head

def lines (s : Store) (title : String) (p : Program Value) : List String :=
  [s!"== {title} ==", "-- functions --"] ++ p.functions.byId.map function ++
    ["-- tasks --"] ++ p.tasks.flatMap task ++
    ["-- literals --"] ++
    p.literals.mapIdx (fun i v => s!"[{i}] {(s.tag v).name}: {literal s v}") ++
    ["-- code --"] ++ p.code.map (instruction s p)

end Conductor.Listing
