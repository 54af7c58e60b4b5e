import Conductor.Numeric.Double

namespace Conductor

-- The positive number `digits * 10 ^ power`.
structure Decimal where
  digits : Nat
  power : Int
deriving DecidableEq

namespace Decimal

-- The number `m * 2 ^ e`, exactly.
def ofBinary (m : Nat) (e : Int) : Decimal :=
  if 0 ≤ e then ⟨m * Nat.pow 2 e.toNat, 0⟩ else ⟨m * Nat.pow 5 (-e).toNat, e⟩

-- Digits and zeros around a point that stands where it must, without an exponent.
def positional (d : Decimal) : String :=
  let digits := Nat.toDigits 10 d.digits
  let places := (-d.power).toNat
  if 0 ≤ d.power then String.ofList (digits ++ List.replicate d.power.toNat '0')
  else
    let padded := List.replicate (places + 1 - digits.length) '0' ++ digits
    let whole := padded.length - places
    String.ofList (padded.take whole ++ '.' :: padded.drop whole)

end Decimal

namespace Shortest

-- Four times the significands of the ends of the interval that rounds to `m * 2 ^ e`. Below a
-- power of two the doubles lie twice as dense.
def lower (m : Nat) (e : Int) : Nat :=
  if m = Double.hiddenBit ∧ -1074 < e then 4 * m - 1 else 4 * m - 2

def upper (m : Nat) : Nat := 4 * m + 2

-- What a unit of the last place of `4 * m * 2 ^ (e - 2)` and one of the grid `10 ^ p` measure
-- when both are made whole by one common factor.
def binaryUnit (e p : Int) : Nat := Nat.pow 2 (e - 2).toNat * Nat.pow 10 (-p).toNat

def decimalUnit (e p : Int) : Nat := Nat.pow 2 (2 - e).toNat * Nat.pow 10 p.toNat

-- Whether `d * 10 ^ p` rounds to `m * 2 ^ e`. A tie goes to the even significand.
def readsBack (m : Nat) (e : Int) (d : Nat) (p : Int) : Bool :=
  let low := lower m e * binaryUnit e p
  let high := upper m * binaryUnit e p
  let point := d * decimalUnit e p
  if m % 2 = 0 then decide (low ≤ point ∧ point ≤ high) else decide (low < point ∧ point < high)

-- The neighbour of `m * 2 ^ e` on the grid `10 ^ p` that reads back; the nearer of two, and of
-- two equally near the larger.
def onGrid (m : Nat) (e p : Int) : Option Decimal :=
  let value := 4 * m * binaryUnit e p
  let unit := decimalUnit e p
  let down := value / unit
  let preferDown := decide (2 * (value % unit) < unit)
  match readsBack m e down p, readsBack m e (down + 1) p with
  | true, true => some ⟨if preferDown then down else down + 1, p⟩
  | true, false => some ⟨down, p⟩
  | false, true => some ⟨down + 1, p⟩
  | false, false => none

-- A power of ten above `m * 2 ^ e`.
def topPower (m : Nat) (e : Int) : Int := (m.log2 + 1 + e) * 30103 / 100000 + 1

-- The first hit on ever finer grids. Seventeen digits always read back.
def decimal (m : Nat) (e : Int) : Decimal :=
  ((List.range 20).findSome? fun (i : Nat) => onGrid m e (topPower m e - i)).getD
    (Decimal.ofBinary m e)

end Shortest

-- The text of a double: shortest, positional, with no point on whole numbers.
def Double.text (x : Double) : String :=
  let sign := if x.negative then "-" else ""
  if x.isNaN then "NaN"
  else if x.isInfinite then sign ++ "inf"
  else if x.isZero then sign ++ "0"
  else sign ++ (Shortest.decimal x.significand x.exponent).positional

example : Shortest.decimal 1 (-1074) = ⟨5, -324⟩ := by decide +kernel
example : Shortest.decimal (2 ^ 52) 971 = ⟨898846567431158, 293⟩ := by decide +kernel
example : Shortest.decimal 7205759403792794 (-56) = ⟨1, -1⟩ := by decide +kernel
example : Decimal.positional ⟨15, -1⟩ = "1.5" ∧ Decimal.positional ⟨1, -3⟩ = "0.001" ∧
    Decimal.positional ⟨12, 2⟩ = "1200" := by decide +kernel

end Conductor
