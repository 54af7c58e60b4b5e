import Conductor.Store.Basic

namespace Conductor

-- Two numbers brought to one type: integers stay, a double makes the other one a double.
inductive Numbers where
  | ints (m n : Int64)
  | floats (x y : Double)

def Numbers.of? : Value → Value → Option Numbers
  | .int m, .int n => some (ints m n)
  | v, w => do some (floats (← v.asDouble?) (← w.asDouble?))

def Numbers.eval (ints : Int64 → Int64 → Int64) (floats : Double → Double → Double) :
    Numbers → Value
  | .ints m n => .int (ints m n)
  | .floats x y => .float (floats x y)

-- Whether a value is a number equal to zero.
def Value.isZero : Value → Bool
  | .int n => n == 0
  | .float x => x.isZero
  | _ => false

-- The order of two values: absent when their types have none, absent inside when one is NaN.
def Value.order? : Value → Value → Option (Option Ordering)
  | .string a, .string b => some (some (compare a b))
  | v, w =>
    match Numbers.of? v w with
    | some (.ints m n) => some (some (compare m.toInt n.toInt))
    | some (.floats x y) => some (x.compare? y)
    | none => none

namespace BinaryOp

-- Whether a comparison holds of operands in this order.
def holds : BinaryOp → Ordering → Bool
  | lt, order => order.isLT
  | le, order => order.isLE
  | gt, order => order.isGT
  | ge, order => order.isGE
  | _, _ => false

-- The result where the operator is defined for the operands. Division is for nonzero divisors.
def eval? (op : BinaryOp) (a b : Value) : Option Value :=
  match op with
  | add =>
    match a, b with
    | .string s, .string t => some (.string (s ++ t))
    | _, _ => (Numbers.of? a b).map (Numbers.eval (· + ·) Double.add)
  | sub => (Numbers.of? a b).map (Numbers.eval (· - ·) Double.sub)
  | mul => (Numbers.of? a b).map (Numbers.eval (· * ·) Double.mul)
  | div => (Numbers.of? a b).map (Numbers.eval (· / ·) Double.div)
  | mod => (Numbers.of? a b).map (Numbers.eval (· % ·) Double.rem)
  | exp => do some (.float ((← a.asDouble?).pow (← b.asDouble?)))
  | and => do some (.bool ((← a.asBool?) && (← b.asBool?)))
  | or => do some (.bool ((← a.asBool?) || (← b.asBool?)))
  | lt | le | gt | ge => (a.order? b).map fun order => .bool (order.any op.holds)
  | eq => some (.bool (a.equals b))
  | ne => some (.bool (!a.equals b))

-- Only the two divisions fail on a zero.
def divides : BinaryOp → Bool
  | div | mod => true
  | _ => false

def apply (op : BinaryOp) (s : Store) (a b : Value) : Except ValueError Value :=
  match op.eval? a b with
  | none => .error (.undefined (.binary op) (s.tag a) (some (s.tag b)))
  | some result =>
    if op.divides && b.isZero then .error (.divisionByZero op) else .ok result

end BinaryOp

namespace UnaryOp

def apply (op : UnaryOp) (s : Store) (a : Value) : Except ValueError Value :=
  match op, a with
  | neg, .int n => .ok (.int (-n))
  | neg, .float x => .ok (.float x.neg)
  | not, .bool b => .ok (.bool (!b))
  | _, _ => s.refuse (.unary op) a

end UnaryOp

example : BinaryOp.add.eval? (.int Int64.maxValue) (.int 1) = some (.int Int64.minValue) := by
  decide +kernel
example : BinaryOp.div.eval? (.int (-7)) (.int 2) = some (.int (-3)) ∧
    BinaryOp.mod.eval? (.int (-7)) (.int 2) = some (.int (-1)) := by decide +kernel
example : BinaryOp.lt.eval? (.float Double.nan) (.int 1) = some (.bool false) ∧
    BinaryOp.lt.eval? (.int 1) (.string "") = none := by decide +kernel

end Conductor
