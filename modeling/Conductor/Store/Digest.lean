import Conductor.Hash.SipHash
import Conductor.Store.Path
import Conductor.Text.Utf8

namespace Conductor.Store

def trueHash : UInt64 := 7741

def falseHash : UInt64 := 7753

-- The bytes of a word.
def wordBytes (word : UInt64) : Bytes := leBytes 8 word.toNat

-- The bytes hashed for an integer, and for a double that equals it.
def intPreimage (n : Int64) : Bytes := 1 :: wordBytes n.toUInt64

def floatPreimage (x : Double) : Bytes :=
  match x.toInt64? with
  | some n => intPreimage n
  | none => 2 :: wordBytes x.bits

-- Text is closed by a byte that occurs in none.
def stringPreimage (text : String) : Bytes := Utf8.encode text ++ [0xff]

-- The hash of a value inside the containers of a path. The entries of a map are added up, so that
-- their order does not count, and a container that is met inside itself counts as zero.
def hashWithin (digest : Bytes → UInt64) (s : Store) (path : List Address) : Value → UInt64
  | .void => digest [0]
  | .bool b => if b then trueHash else falseHash
  | .int n => digest (intPreimage n)
  | .float x => digest (floatPreimage x)
  | .string text => digest (3 :: stringPreimage text)
  | .container a =>
    if _h : s.Enterable path a then
      match s.fetch a with
      | .list cell =>
        digest (4 :: cell.items.flatMap fun v => wordBytes (hashWithin digest s (a :: path) v))
      | .map cell =>
        let entries := cell.entries.toList.map fun entry =>
          digest (stringPreimage entry.1 ++ wordBytes (hashWithin digest s (a :: path) entry.2))
        digest (5 :: wordBytes (entries.foldl (· + ·) 0))
    else 0
termination_by s.room path
decreasing_by all_goals exact room_cons_lt _h

def hash (s : Store) (v : Value) : UInt64 := hashWithin SipHash.digest s [] v

end Conductor.Store
