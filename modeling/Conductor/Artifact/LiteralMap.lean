import Conductor.Value
import Conductor.Artifact.Error
import Std.Data.HashSet

namespace Conductor

-- Keyed by the equality of the language: an equal literal keeps the first key and takes the last
-- index, and NaN is never found again.
structure LiteralMap where
  toList : List (Value × UInt16)

namespace LiteralMap

def empty : LiteralMap := ⟨[]⟩

def insertEntry (key : Value) (index : UInt16) : List (Value × UInt16) → List (Value × UInt16)
  | [] => [(key, index)]
  | entry :: rest =>
    if entry.1.equals key then (entry.1, index) :: rest else entry :: insertEntry key index rest

def insert (m : LiteralMap) (key : Value) (index : UInt16) : LiteralMap :=
  ⟨insertEntry key index m.toList⟩

def ofList (entries : List (Value × UInt16)) : LiteralMap :=
  entries.foldl (fun m entry => m.insert entry.1 entry.2) empty

-- Whether every key has a form of its own, and none of those that were seen before.
def distinct : Std.HashSet Value → List (Value × UInt16) → Bool
  | _, [] => true
  | seen, (key, _) :: rest =>
    !seen.contains key.canonical && distinct (seen.insert key.canonical) rest

-- The map of the entries, for tables of any size: they are only gone through again for each entry
-- when two keys may be equal.
def collect (entries : List (Value × UInt16)) : LiteralMap :=
  if distinct ∅ entries then ⟨entries⟩ else ofList entries

-- The first place at which the indices of a list depart from `expected`, `expected + 1` and so on.
def gap? : Nat → List (Value × UInt16) → Option (Nat × UInt16)
  | _, [] => none
  | expected, (_, found) :: rest =>
    if expected = found.toNat then gap? (expected + 1) rest else some (expected, found)

-- The literals in the order of their indices, which must leave no gap.
def ordered (m : LiteralMap) : Except EncodeError (List Value) :=
  let entries := m.toList.mergeSort fun a b => decide (a.2 ≤ b.2)
  match gap? 0 entries with
  | some (expected, found) => .error (.literalIndexGap (UInt16.ofNat expected) found)
  | none => .ok (entries.map Prod.fst)

end LiteralMap

end Conductor
