import Conductor.Bytes

namespace Conductor.Utf8

def encodeChar (c : Char) : Bytes :=
  let n := c.toNat
  if n < 0x80 then [UInt8.ofNat n]
  else if n < 0x800 then [UInt8.ofNat (0xC0 + n / 64), UInt8.ofNat (0x80 + n % 64)]
  else if n < 0x10000 then
    [UInt8.ofNat (0xE0 + n / 4096), UInt8.ofNat (0x80 + n / 64 % 64), UInt8.ofNat (0x80 + n % 64)]
  else
    [UInt8.ofNat (0xF0 + n / 262144), UInt8.ofNat (0x80 + n / 4096 % 64),
      UInt8.ofNat (0x80 + n / 64 % 64), UInt8.ofNat (0x80 + n % 64)]

def encode (s : String) : Bytes := s.toList.flatMap encodeChar

-- Where the reading stopped. The length of the bad sequence is absent when the input ends inside
-- a character.
structure Fault where
  validUpTo : Nat
  badLength : Option Nat
deriving DecidableEq

def Fault.message (fault : Fault) : String :=
  match fault.badLength with
  | some n => s!"invalid utf-8 sequence of {n} bytes from index {fault.validUpTo}"
  | none => s!"incomplete utf-8 byte sequence from index {fault.validUpTo}"

-- A character under way: its bits so far, how many bytes were read and are missing, and the
-- range of the next byte.
structure Pending where
  value : Nat
  seen : Nat
  missing : Nat
  low : Nat
  high : Nat

-- What a lead byte announces. The bounds on the second byte leave out overlong forms, surrogates
-- and numbers past the last character.
def lead? (byte : Nat) : Option Pending :=
  if byte < 0xC2 then none
  else if byte < 0xE0 then some ⟨byte - 0xC0, 1, 1, 0x80, 0xBF⟩
  else if byte < 0xF0 then
    some ⟨byte - 0xE0, 1, 2, if byte = 0xE0 then 0xA0 else 0x80, if byte = 0xED then 0x9F else 0xBF⟩
  else if byte < 0xF5 then
    some ⟨byte - 0xF0, 1, 3, if byte = 0xF0 then 0x90 else 0x80, if byte = 0xF4 then 0x8F else 0xBF⟩
  else none

-- Reads from a boundary, or from inside a character that began at `start`.
def scan (start : Nat) : Option Pending → Bytes → Except Fault (List Char)
  | none, [] => .ok []
  | some _, [] => .error ⟨start, none⟩
  | none, byte :: rest =>
    if byte.toNat < 0x80 then (Char.ofNat byte.toNat :: ·) <$> scan (start + 1) none rest
    else
      match lead? byte.toNat with
      | none => .error ⟨start, some 1⟩
      | some pending => scan start (some pending) rest
  | some pending, byte :: rest =>
    if pending.low ≤ byte.toNat ∧ byte.toNat ≤ pending.high then
      let value := pending.value * 64 + (byte.toNat - 0x80)
      if pending.missing ≤ 1 then
        (Char.ofNat value :: ·) <$> scan (start + pending.seen + 1) none rest
      else scan start (some ⟨value, pending.seen + 1, pending.missing - 1, 0x80, 0xBF⟩) rest
    else .error ⟨start, some pending.seen⟩

def decode (bytes : Bytes) : Except Fault String := String.ofList <$> scan 0 none bytes

example : scan 0 none (encode "aé日🙂") = .ok ['a', 'é', '日', '🙂'] := by rfl
example : scan 0 none [0x61, 0xE2, 0x28] = .error ⟨1, some 1⟩ := by rfl
example : scan 0 none [0xF0, 0x9F, 0x98, 0x28] = .error ⟨0, some 3⟩ := by rfl
example : scan 0 none [0x61, 0xE2, 0x82] = .error ⟨1, none⟩ := by rfl
example : scan 0 none [0xED, 0xA0, 0x80] = .error ⟨0, some 1⟩ := by rfl

end Conductor.Utf8
