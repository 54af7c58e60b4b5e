import Conductor.Archive.Emission
import Conductor.Archive.Reader
import Conductor.Artifact.Error
import Conductor.OrderedMap

namespace Conductor

structure Function where
  id : UInt16
  dependencies : List String
deriving DecidableEq

abbrev SymbolTable := OrderedMap String Function

namespace SymbolTable

-- The functions in the ascending order of their numbers.
def byId (table : SymbolTable) : List (String × Function) :=
  table.toList.mergeSort fun a b => decide (a.2.id ≤ b.2.id)

-- Puts a function among others in the ascending order of the numbers. One that had its number makes
-- way and is given back.
def insertById (function : String × Function) :
    List (String × Function) → Option (String × Function) × List (String × Function)
  | [] => (none, [function])
  | other :: rest =>
    if function.2.id < other.2.id then (none, function :: other :: rest)
    else if function.2.id = other.2.id then (some other, function :: rest)
    else
      let (replaced, rest) := insertById function rest
      (replaced, other :: rest)

-- Two functions with one number, as an error that has their names in order.
def clash (a b : String × Function) : EncodeError :=
  if a.1 < b.1 then .duplicateFunctionId b.2.id a.1 b.1 else .duplicateFunctionId b.2.id b.1 a.1

-- Puts functions in their places one by one, up to the first whose number is taken.
def indexAll (functions : List (String × Function)) :
    List (String × Function) → Except EncodeError (List (String × Function))
  | [] => .ok functions
  | function :: rest =>
    match insertById function functions with
    | (none, functions) => indexAll functions rest
    | (some other, _) => .error (clash other function)

-- The functions by number, or the error that names two that share one.
def indexed (table : SymbolTable) : Except EncodeError (List (String × Function)) :=
  indexAll [] table.toList

open Archive

def emission (functions : List (String × Function)) : Emission :=
  .seq
    (fun function =>
      .number 2 function.2.id.toNat ++ .text function.1 ++ .seq .text function.2.dependencies)
    functions

-- Of several functions with one number the last one counts, and so it does of a repeated name in
-- the order of the numbers.
def read : Reader SymbolTable := do
  let entries ← Reader.seq (do
    let id := UInt16.ofNat (← Reader.number 2)
    let name ← Reader.text
    return (id, name, ← Reader.seq Reader.text))
  let table := (OrderedMap.ofList entries).sorted
  return .ofList (table.toList.map fun (id, name, dependencies) => (name, { id, dependencies }))

-- The name of the function with this number.
def name? (table : SymbolTable) (id : UInt16) : Option String :=
  (table.toList.find? fun function => function.2.id == id).map Prod.fst

end SymbolTable

end Conductor
