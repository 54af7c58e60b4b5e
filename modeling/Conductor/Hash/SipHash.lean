import Conductor.Bytes

namespace Conductor.SipHash

structure State where
  v0 : UInt64
  v1 : UInt64
  v2 : UInt64
  v3 : UInt64

def rotate (x : UInt64) (count : UInt64) : UInt64 := (x <<< count) ||| (x >>> (64 - count))

def State.round (s : State) : State :=
  let v0 := s.v0 + s.v1
  let v2 := s.v2 + s.v3
  let v1 := rotate s.v1 13 ^^^ v0
  let v3 := rotate s.v3 16 ^^^ v2
  let v0 := rotate v0 32
  let v2 := v2 + v1
  let v0 := v0 + v3
  let v1 := rotate v1 17 ^^^ v2
  let v3 := rotate v3 21 ^^^ v0
  let v2 := rotate v2 32
  ⟨v0, v1, v2, v3⟩

def initial : State :=
  ⟨0x736f6d6570736575, 0x646f72616e646f6d, 0x6c7967656e657261, 0x7465646279746573⟩

def State.absorb (s : State) (word : UInt64) : State :=
  let mixed := { s with v3 := s.v3 ^^^ word }.round
  { mixed with v0 := mixed.v0 ^^^ word }

def State.finish (s : State) : UInt64 :=
  let closed := { s with v2 := s.v2 ^^^ 0xff }.round.round.round
  closed.v0 ^^^ closed.v1 ^^^ closed.v2 ^^^ closed.v3

def word (bytes : Bytes) : UInt64 := UInt64.ofNat (leNat bytes)

-- Absorbs whole words, then the rest with the low byte of the length above it.
def absorbAll (length : Nat) : State → Bytes → State
  | s, b0 :: b1 :: b2 :: b3 :: b4 :: b5 :: b6 :: b7 :: rest =>
    absorbAll length (s.absorb (word [b0, b1, b2, b3, b4, b5, b6, b7])) rest
  | s, rest => s.absorb (word rest ||| UInt64.ofNat (length % 256) <<< 56)

def digest (bytes : Bytes) : UInt64 := (absorbAll bytes.length initial bytes).finish

example : digest [] = 0xd1fba762150c532c := by decide +kernel

end Conductor.SipHash
