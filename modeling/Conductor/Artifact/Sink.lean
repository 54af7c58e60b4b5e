import Conductor.Bytes

namespace Conductor

-- The bytes up to the position, and those behind it, which are overwritten one by one. A write past
-- the limit is cut off there and fails.
structure Sink where
  bytes : Array UInt8
  limit : Option Nat := none
  rest : Bytes := []

namespace Sink

def position (s : Sink) : Nat := s.bytes.size

-- How many of `count` bytes the sink takes at its position.
def room (s : Sink) (count : Nat) : Nat :=
  match s.limit with
  | none => count
  | some limit => min count (limit - s.position)

-- Puts bytes at the position, over as many of those behind it.
def grown (s : Sink) (bytes : Bytes) : Sink :=
  { s with bytes := s.bytes ++ bytes, rest := s.rest.drop bytes.length }

-- Puts as many bytes at the position as the sink takes, and says whether these were all of them.
def write (s : Sink) (bytes : Bytes) : Bool × Sink :=
  let room := s.room bytes.length
  if room = bytes.length then (true, s.grown bytes) else (false, s.grown (bytes.take room))

-- Writes bytes over those that begin at an earlier position.
def overwrite (s : Sink) (position : Nat) : Bytes → Sink
  | [] => s
  | byte :: rest =>
    overwrite { s with bytes := s.bytes.setIfInBounds position byte } (position + 1) rest

end Sink

end Conductor
