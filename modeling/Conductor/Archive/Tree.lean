import Conductor.Archive.Emission
import Conductor.Archive.Reader
import Conductor.Value

namespace Conductor

-- The tree that a value unfolds to. Trees share nothing.
inductive Archived where
  | void
  | bool (b : Bool)
  | int (n : Int64)
  | float (x : Double)
  | string (s : String)
  | list (element : Tag) (sample items : List Archived)
  | map (key element : Tag) (sample : List Archived) (entries : List (String × Archived))
deriving Inhabited

namespace Archived

mutual

def encode : Archived → Bytes
  | void => leBytes 4 0
  | bool b => leBytes 4 1 ++ leBytes 1 b.toNat
  | int n => leBytes 4 2 ++ leBytes 8 n.toUInt64.toNat
  | float x => leBytes 4 3 ++ leBytes 8 x.bits.toNat
  | string s => leBytes 4 4 ++ Archive.textBytes s
  | list element sample items =>
    leBytes 4 5 ++ leBytes 4 element.code ++
      (leBytes 8 sample.length ++ encodeAll sample) ++ (leBytes 8 items.length ++ encodeAll items)
  | map key element sample entries =>
    leBytes 4 6 ++ leBytes 4 key.code ++ leBytes 4 element.code ++
      (leBytes 8 sample.length ++ encodeAll sample) ++
      (leBytes 8 entries.length ++ encodeEntries entries)

def encodeAll : List Archived → Bytes
  | [] => []
  | node :: rest => encode node ++ encodeAll rest

def encodeEntries : List (String × Archived) → Bytes
  | [] => []
  | (key, node) :: rest => Archive.textBytes key ++ encode node ++ encodeEntries rest

end

-- The bytes of the input bound the nesting, since every node starts with the number of its kind.
def decodeWithin : Bytes → Archive.Reader Archived
  | [] => throw .endOfField
  | _ :: bound => do
    match ← Archive.Reader.variant 7 with
    | 0 => return .void
    | 1 => return .bool (← Archive.Reader.bool)
    | 2 => return .int (UInt64.ofNat (← Archive.Reader.number 8)).toInt64
    | 3 => return .float ⟨UInt64.ofNat (← Archive.Reader.number 8)⟩
    | 4 => return .string (← Archive.Reader.text)
    | 5 => do
      let element ← Archive.Reader.tag
      let sample ← Archive.Reader.seq (decodeWithin bound)
      let items ← Archive.Reader.seq (decodeWithin bound)
      return .list element sample items
    | _ => do
      let key ← Archive.Reader.tag
      let element ← Archive.Reader.tag
      let sample ← Archive.Reader.seq (decodeWithin bound)
      let entries ← Archive.Reader.seq (do
        let key ← Archive.Reader.text
        return (key, ← decodeWithin bound))
      return .map key element sample entries

def decode : Archive.Reader Archived := fun bytes => decodeWithin bytes bytes

end Archived

end Conductor
