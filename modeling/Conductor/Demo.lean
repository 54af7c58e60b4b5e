import Conductor.Artifact.Program

namespace Conductor.Demo

-- The places of the literals.
def onIndex : Int := 0

def messageIndex : Int := 1

def levelsIndex : Int := 2

def ratioIndex : Int := 3

def levels : Container := .list { element := .int, items := [.int 0, .int 50, .int 100] }

def toggleBody : List Instruction :=
  [Instruction.signal .start,
    ⟨.mktype, [0, (Tag.device .light).code], by decide⟩,
    ⟨.load, [0], by decide⟩,
    ⟨.push, [onIndex], by decide⟩,
    ⟨.load, [0], by decide⟩,
    ⟨.push, [onIndex], by decide⟩,
    .plain .aload,
    .plain .not,
    .plain .astore,
    ⟨.push, [levelsIndex], by decide⟩,
    ⟨.push, [ratioIndex], by decide⟩,
    ⟨.mtrap, [2], by decide⟩,
    ⟨.call, [1, 0], by decide⟩,
    Instruction.signal .stop,
    .plain .ret]

def logBody : List Instruction :=
  [⟨.push, [messageIndex], by decide⟩, ⟨.trap, [0, 1], by decide⟩, .plain .ret]

def button : DeviceBinding Value :=
  { name := "btn", type := .device .button, controller := "PI_1", initial := .void,
    kind := .interrupt }

def lamp : DeviceBinding Value :=
  { name := "lamp", type := .device .light, controller := "PI_2", initial := .void,
    kind := .actuator, isConst := false }

def task : TaskRecord Value :=
  { name := "toggle", bound := [button, lamp], inputs := [button], outputs := [lamp],
    triggers := [{ rule := ["btn"], id := "press" }] }

def functions : SymbolTable :=
  .ofList
    [("toggle", { id := 0, dependencies := ["log"] }), ("log", { id := 1, dependencies := [] })]

def program (s : Store) : Program Value × Store :=
  let (levels, s) := s.allocateValue levels
  let ratio := Double.round false 1 (-1)
  let literals := [.string "on", .string "light toggled", levels, .float ratio]
  ({ functions, tasks := [task], literals, code := Program.place 0 (toggleBody ++ logBody) }, s)

-- The artifact of the program.
def artifact : Except EncodeError Bytes :=
  let (p, s) := program .empty
  Program.write s p

end Conductor.Demo
