namespace Conductor

-- A double-precision number, given by its 64 bits.
structure Double where
  bits : UInt64
deriving DecidableEq, Hashable, Inhabited

namespace Double

-- The weight of the sign bit, and that of the bit that a significand has and the bits leave out.
def signBit : Nat := 0x8000000000000000

def hiddenBit : Nat := 0x10000000000000

-- Whether the sign bit is set.
def negative (x : Double) : Bool := decide (signBit ≤ x.bits.toNat)

-- The bits below the sign. They order the nonnegative numbers, infinity and NaN last.
def magnitude (x : Double) : Nat := x.bits.toNat % signBit

-- The magnitude of the infinities; above it lie the NaNs.
def infiniteMagnitude : Nat := 2047 * hiddenBit

def isNaN (x : Double) : Bool := decide (infiniteMagnitude < x.magnitude)

def isInfinite (x : Double) : Bool := decide (x.magnitude = infiniteMagnitude)

def isFinite (x : Double) : Bool := decide (x.magnitude < infiniteMagnitude)

def isZero (x : Double) : Bool := decide (x.magnitude = 0)

-- The number with the given sign and magnitude.
def ofParts (negative : Bool) (magnitude : Nat) : Double :=
  ⟨UInt64.ofNat ((if negative then signBit else 0) + magnitude)⟩

def nan : Double := ofParts false (infiniteMagnitude + hiddenBit / 2)

def infinity (negative : Bool) : Double := ofParts negative infiniteMagnitude

def zero (negative : Bool) : Double := ofParts negative 0

-- A finite number is its significand times two to its exponent, up to sign.
def significand (x : Double) : Nat :=
  if x.magnitude < hiddenBit then x.magnitude else x.magnitude % hiddenBit + hiddenBit

def exponent (x : Double) : Int := (max 1 (x.magnitude / hiddenBit) : Nat) - 1075

-- Negation flips the sign bit, of NaN too.
def neg (x : Double) : Double := ⟨x.bits ^^^ 0x8000000000000000⟩

-- The place of a number that is not NaN in the order of the doubles. The zeros share theirs.
def rank (x : Double) : Int := if x.negative then -(x.magnitude : Int) else x.magnitude

-- The IEEE comparison. NaN compares with nothing.
def compare? (x y : Double) : Option Ordering :=
  if x.isNaN || y.isNaN then none else some (compare x.rank y.rank)

-- The IEEE equality: NaN differs from itself and the zeros are equal.
def equals (x y : Double) : Bool := !x.isNaN && !y.isNaN && x.rank == y.rank

-- The nearest number to `m * 2 ^ e`, ties to even, infinite past the largest finite number.
def round (negative : Bool) (m : Nat) (e : Int) : Double :=
  if m = 0 then zero negative
  else
    let target := max (e + m.log2 - 52) (-1074)
    let significand :=
      if target ≤ e then m * Nat.pow 2 (e - target).toNat
      else
        let unit := Nat.pow 2 (target - e).toNat
        let down := m / unit
        let rest := 2 * (m % unit)
        if unit < rest || (unit = rest && down % 2 = 1) then down + 1 else down
    ofParts negative (min infiniteMagnitude ((target + 1074).toNat * hiddenBit + significand))

-- The nearest number to an integer.
def ofInt (n : Int) : Double := round (decide (n < 0)) n.natAbs 0

-- The exact value of a finite number that has no fractional part.
def toInt? (x : Double) : Option Int :=
  let signed (n : Nat) : Int := if x.negative then -(n : Int) else n
  if !x.isFinite then none
  else if 0 ≤ x.exponent then some (signed (x.significand * Nat.pow 2 x.exponent.toNat))
  else
    let unit := Nat.pow 2 (-x.exponent).toNat
    if x.significand % unit = 0 then some (signed (x.significand / unit)) else none

-- The 64-bit integer that a number equals, if there is one.
def toInt64? (x : Double) : Option Int64 := do
  let n ← x.toInt?
  if (Int64.ofInt n).toInt = n then some (Int64.ofInt n) else none

-- The remainder of the division truncated toward zero. It is exact and has the sign of `x`.
def rem (x y : Double) : Double :=
  if x.isNaN || y.isNaN || x.isInfinite || y.isZero then nan
  else if y.isInfinite then x
  else
    let e := min x.exponent y.exponent
    let m := x.significand * Nat.pow 2 (x.exponent - e).toNat
    let n := y.significand * Nat.pow 2 (y.exponent - e).toNat
    round x.negative (m % n) e

def toFloat (x : Double) : Float := Float.ofBits x.bits

def ofFloat (x : Float) : Double := ⟨x.toBits⟩

def add (x y : Double) : Double := ofFloat (x.toFloat + y.toFloat)

def sub (x y : Double) : Double := ofFloat (x.toFloat - y.toFloat)

def mul (x y : Double) : Double := ofFloat (x.toFloat * y.toFloat)

def div (x y : Double) : Double := ofFloat (x.toFloat / y.toFloat)

def pow (x y : Double) : Double := ofFloat (Float.pow x.toFloat y.toFloat)

-- Adding to the bits of the largest finite number gives infinity, so rounding up may carry.
example : round false (2 ^ 54 - 1) 970 = infinity false := by decide +kernel
example : round false 3 (-1075) = ⟨2⟩ ∧ round true 1 (-1075) = zero true := by decide +kernel
example :
    ofInt (2 ^ 53 + 1) = ofInt (2 ^ 53) ∧ (ofInt (2 ^ 53 + 3)).toInt? = some (2 ^ 53 + 4) := by
  decide +kernel
example :
    (rem (ofInt (-7)) (ofInt 3)).toInt? = some (-1) ∧ rem (ofInt (-6)) (ofInt 3) = zero true := by
  decide +kernel
example : (add (ofInt 1) (ofInt 2)) = ofInt 3 := by decide +kernel

end Double

end Conductor
