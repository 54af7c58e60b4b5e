import Conductor.Numeric.Shortest

namespace Conductor

-- The place of a container in a store.
structure Address where
  index : Nat
deriving DecidableEq, Hashable

-- Equality of the type compares doubles by their bits and containers by their address.
inductive Value where
  | void
  | bool (b : Bool)
  | int (n : Int64)
  | float (x : Double)
  | string (s : String)
  | container (a : Address)
deriving DecidableEq, Hashable, Inhabited

namespace Value

def isVoid : Value → Bool
  | void => true
  | _ => false

def isNumeric : Value → Bool
  | int _ | float _ => true
  | _ => false

def isContainer : Value → Bool
  | container _ => true
  | _ => false

def asBool? : Value → Option Bool
  | bool b => some b
  | _ => none

def asInt? : Value → Option Int64
  | int n => some n
  | _ => none

-- The number as a double. Integers round to the nearest one.
def asDouble? : Value → Option Double
  | int n => some (Double.ofInt n.toInt)
  | float x => some x
  | _ => none

def asString? : Value → Option String
  | string s => some s
  | _ => none

def address? : Value → Option Address
  | container a => some a
  | _ => none

-- The text of a scalar other than void. Maps keep their keys under it.
def text? : Value → Option String
  | bool b => some (if b then "true" else "false")
  | int n => some (toString n.toInt)
  | float x => some x.text
  | string s => some s
  | void | container _ => none

-- The equality of the language. Numbers are equal when they are the same number, containers when
-- they are the same container, and values of unrelated kinds never.
def equals : Value → Value → Bool
  | void, void => true
  | bool a, bool b => a == b
  | int m, int n => m == n
  | float x, float y => x.equals y
  | int n, float x | float x, int n => x.toInt64? == some n
  | string a, string b => a == b
  | container a, container b => a == b
  | _, _ => false

-- The form that equal values have in common: an integer for a double that is one.
def canonical : Value → Value
  | float x => (x.toInt64?.map int).getD (float x)
  | v => v

end Value

end Conductor
