import Conductor.Artifact.Error
import Conductor.Store.Basic
import Std.Data.HashMap

namespace Conductor

-- The index of a literal is its place among the values, and no other value has an index.
structure LiteralPool where
  values : Array Value
  indices : Std.HashMap Value UInt16
  indexed : ∀ (v : Value) (i : UInt16), indices[v]? = some i ↔ values[i.toNat]? = some v
  complete : values.size ≤ UInt16.size

namespace LiteralPool

def empty : LiteralPool where
  values := #[]
  indices := ∅
  indexed := by simp
  complete := by simp

instance : Inhabited LiteralPool := ⟨empty⟩

def size (p : LiteralPool) : Nat := p.values.size

def get? (p : LiteralPool) (index : Nat) : Option Value := p.values[index]?

theorem indexed_push {values : Array Value} {indices : Std.HashMap Value UInt16} {v : Value}
    (hindexed : ∀ (w : Value) (i : UInt16), indices[w]? = some i ↔ values[i.toNat]? = some w)
    (hfresh : indices[v]? = none) (hsize : values.size < UInt16.size) (w : Value) (i : UInt16) :
    (indices.insert v (UInt16.ofNat values.size))[w]? = some i ↔
      (values.push v)[i.toNat]? = some w := by
  have hnat : (UInt16.ofNat values.size).toNat = values.size :=
    UInt16.toNat_ofNat_of_lt hsize
  rw [Std.HashMap.getElem?_insert, Array.getElem?_push]
  by_cases hv : v = w
  · subst hv
    by_cases hi : i.toNat = values.size
    · have hword : UInt16.ofNat values.size = i := UInt16.toNat_inj.mp (by omega)
      simp [hi, hword]
    · have hne : UInt16.ofNat values.size ≠ i := fun h => hi (by rw [← h, hnat])
      have habsent : values[i.toNat]? ≠ some v := fun h => by
        have hcontra := (hindexed v i).mpr h
        rw [hfresh] at hcontra
        cases hcontra
      simp [hi, hne, habsent]
  · have hbeq : (v == w) = false := by simpa using hv
    by_cases hi : i.toNat = values.size
    · have habsent : indices[w]? ≠ some i := fun h => by
        have hcontra := (hindexed w i).mp h
        rw [hi] at hcontra
        simp at hcontra
      simp [hbeq, hi, hv, habsent]
    · simp [hbeq, hi, hindexed w i]

-- The index of a literal, a new one on first sight. Void is no literal, and a full pool takes no
-- new one; a failure leaves the pool as it is.
def intern (p : LiteralPool) (s : Store) (v : Value) : Except EncodeError UInt16 × LiteralPool :=
  if v.isVoid then (.error (.unrepresentable p.size (s.tag v)), p)
  else
    match hfound : p.indices[v]? with
    | some index => (.ok index, p)
    | none =>
      if hsize : p.values.size < UInt16.size then
        let index := UInt16.ofNat p.values.size
        (.ok index, {
          values := p.values.push v
          indices := p.indices.insert v index
          indexed := indexed_push p.indexed hfound hsize
          complete := by rw [Array.size_push]; exact hsize })
      else (.error (.tooMany .literals (p.size + 1)), p)

-- Interns literals in turn up to the first failure. The result is the last index, at first `last`.
def internAll (p : LiteralPool) (s : Store) (last : UInt16) :
    List Value → Except EncodeError UInt16 × LiteralPool
  | [] => (.ok last, p)
  | v :: rest =>
    match p.intern s v with
    | (.ok index, p) => p.internAll s index rest
    | (.error error, p) => (.error error, p)

end LiteralPool

end Conductor
