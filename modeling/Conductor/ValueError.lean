import Conductor.Operator
import Conductor.Tag
import Conductor.Text.Quoted

namespace Conductor

inductive ValueError where
  | undefined (operation : Operation) (left : Tag) (right : Option Tag)
  | keyNotFound (key : String)
  | indexOutOfBounds (index : Int64) (length : Nat)
  | divisionByZero (op : BinaryOp)
deriving DecidableEq

namespace ValueError

def message : ValueError → String
  | undefined operation left right =>
    let operands :=
      match right with
      | some tag => left.name ++ " and " ++ tag.name
      | none => left.name
    s!"type error: `{operation.name}` is not defined for {operands}"
  | keyNotFound key => s!"key not found: {Text.quoted key}"
  | indexOutOfBounds index length => s!"index {index.toInt} out of bounds for length {length}"
  | divisionByZero op => s!"division by zero in `{op.symbol}`"

end ValueError

end Conductor
