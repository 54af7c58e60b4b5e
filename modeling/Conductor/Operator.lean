namespace Conductor

inductive BinaryOp where
  | add
  | sub
  | mul
  | div
  | mod
  | exp
  | and
  | or
  | lt
  | le
  | gt
  | ge
  | eq
  | ne
deriving DecidableEq

namespace BinaryOp

def all : List BinaryOp := [add, sub, mul, div, mod, exp, and, or, lt, le, gt, ge, eq, ne]

def symbol : BinaryOp → String
  | add => "+"
  | sub => "-"
  | mul => "*"
  | div => "/"
  | mod => "%"
  | exp => "^"
  | and => "&&"
  | or => "||"
  | lt => "<"
  | le => "<="
  | gt => ">"
  | ge => ">="
  | eq => "=="
  | ne => "!="

def ofSymbol? (symbol : String) : Option BinaryOp := all.find? (·.symbol == symbol)

theorem ofSymbol?_symbol (op : BinaryOp) : ofSymbol? op.symbol = some op := by
  cases op <;> decide +kernel

end BinaryOp

inductive UnaryOp where
  | neg
  | not
deriving DecidableEq

def UnaryOp.symbol : UnaryOp → String
  | .neg => "-"
  | .not => "!"

def UnaryOp.ofSymbol? (symbol : String) : Option UnaryOp :=
  [UnaryOp.neg, UnaryOp.not].find? (·.symbol == symbol)

-- What a value was refused for.
inductive Operation where
  | binary (op : BinaryOp)
  | unary (op : UnaryOp)
  | stringify
  | mapKey
  | index
  | pack
  | unpack
deriving DecidableEq

def Operation.name : Operation → String
  | .binary op => op.symbol
  | .unary op => op.symbol
  | .stringify => "stringify"
  | .mapKey => "map key"
  | .index => "index"
  | .pack => "pack"
  | .unpack => "unpack"

end Conductor
