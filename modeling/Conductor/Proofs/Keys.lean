import Conductor.Proofs.Comparison
import Conductor.Proofs.Numeric.Positional
import Conductor.Proofs.OrderedMap
import Conductor.Store.Access

namespace Conductor

namespace Value

-- Two numbers are one number in writing. An integer is written like the double that it is the
-- shortest decimal of.
def SpelledAlike : Value → Value → Prop
  | int m, int n => m = n
  | float x, float y => x = y
  | int n, float x | float x, int n => x.Spells n.toInt
  | _, _ => False

-- Numbers whose writing need not tell whether they are equal: the two zeros, and an integer and
-- either the negative zero or a large double.
def Misspelled : Value → Value → Prop
  | float x, float y => x ≠ y ∧ x.isZero = true ∧ y.isZero = true
  | int _, float x | float x, int _ => x = Double.zero true ∨ 2 ^ 54 ≤ |x.value|
  | _, _ => False

variable {a b : Value}

theorem exists_text? (h : a.IsNumber) : ∃ text, a.text? = some text := by
  cases h <;> exact ⟨_, rfl⟩

theorem natAbs_toInt_le (n : Int64) : n.toInt.natAbs ≤ 2 ^ 63 := by
  have hlow := n.le_toInt
  have hhigh := n.toInt_lt
  omega

theorem text_int_inj {m n : Int64} : toString m.toInt = toString n.toInt ↔ m = n := by
  rw [toString_int_inj, Int64.toInt_inj]

-- Numbers are spelled alike when they have one text.
theorem text?_eq_iff (ha : a.IsNumber) (hb : b.IsNumber) :
    a.text? = b.text? ↔ SpelledAlike a b := by
  cases ha with
  | int m =>
    cases hb with
    | int n => simpa [text?, SpelledAlike] using text_int_inj
    | @float y hy =>
      rw [eq_comm]
      simpa [text?, SpelledAlike] using Double.text_eq_toString_iff hy (natAbs_toInt_le m)
  | @float x hx =>
    cases hb with
    | int n => simpa [text?, SpelledAlike] using Double.text_eq_toString_iff hx (natAbs_toInt_le n)
    | @float y hy => simpa [text?, SpelledAlike] using Double.text_inj hx hy

theorem spells_iff_equals {n : Int64} {x : Double} (hzero : x ≠ Double.zero true)
    (hsmall : |x.value| < 2 ^ 54) : x.Spells n.toInt ↔ (int n).equals (float x) = true := by
  rw [equals, beq_iff_eq, toInt64?_eq_some_iff]
  by_cases hfinite : x.isFinite = true
  · rw [Double.spells_iff_value hfinite hzero hsmall, Double.toInt?_eq_some_iff hfinite]
  · have hnone : x.toInt? = none := by simp [Double.toInt?, hfinite]
    rw [hnone]
    refine iff_of_false (fun h => hfinite ?_) (fun h => by cases h)
    exact h.rounds ▸ Double.isFinite_ofInt (natAbs_toInt_le n)

-- But for the exceptions numbers are spelled alike when they are equal.
theorem spelledAlike_iff_equals (ha : a.IsNumber) (hb : b.IsNumber) (h : ¬Misspelled a b) :
    SpelledAlike a b ↔ a.equals b = true := by
  have hdouble {x : Double} (h : ¬(x = Double.zero true ∨ 2 ^ 54 ≤ |x.value|)) :
      x ≠ Double.zero true ∧ |x.value| < 2 ^ 54 := by
    rwa [not_or, not_le] at h
  cases ha with
  | int m =>
    cases hb with
    | int n => simp [SpelledAlike, equals]
    | float => exact spells_iff_equals (hdouble h).1 (hdouble h).2
  | @float x hx =>
    cases hb with
    | int n => exact spells_iff_equals (hdouble h).1 (hdouble h).2
    | @float y hy =>
      have hequals : x.equals y = true ↔ x.rank = y.rank := by simp [Double.equals, hx, hy]
      rw [equals, hequals, SpelledAlike]
      refine ⟨fun heq => heq ▸ rfl, fun hrank => ?_⟩
      obtain heq | ⟨hzero, hzero'⟩ := Double.eq_or_zeros_of_rank hrank
      · exact heq
      · by_contra hne
        exact h ⟨hne, decide_eq_true hzero, decide_eq_true hzero'⟩

end Value

namespace MapCell

-- Two keys name one entry: what is written under either is read under both.
def Shares (cell : MapCell) (s : Store) (a b : Value) : Prop :=
  ∀ v w, ∃ first second, cell.emplace s a v = .ok first ∧ first.get s b = .ok v ∧
    first.emplace s b w = .ok second ∧ second.get s a = .ok w ∧
    second.entries.keys = first.entries.keys

-- Two keys name two entries: what is written under one is not read or overwritten under the other.
def Separates (cell : MapCell) (s : Store) (a b : Value) : Prop :=
  ∀ v w, ∃ first second, cell.emplace s a v = .ok first ∧ first.get s b = cell.get s b ∧
    first.emplace s b w = .ok second ∧ second.get s a = .ok v ∧ second.get s b = .ok w

variable {cell : MapCell} {s : Store} {a b : Value} {text other : String}

theorem mapKey_of_text? (h : a.text? = some text) : s.mapKey a = .ok text := by
  simp [Store.mapKey, h]

theorem mapKey_of_text?_eq_none (h : a.text? = none) : s.mapKey a = s.refuse .mapKey a := by
  simp [Store.mapKey, h]

theorem emplace_of_text? (h : a.text? = some text) (v : Value) : cell.emplace s a v =
    .ok { cell with entries := cell.entries.insert text v, modified := true } := by
  simp [emplace, mapKey_of_text? h, bind, Except.bind]

-- What a key reads is what stands under its text.
theorem get_of_text? (h : a.text? = some text) : cell.get s a =
    (cell.entries.get? text).elim (.error (.keyNotFound text)) .ok := by
  simp only [get, mapKey_of_text? h, bind, Except.bind]
  cases cell.entries.get? text <;> rfl

theorem contains_of_text? (h : a.text? = some text) :
    cell.contains s a = .ok (cell.entries.contains text) := by
  simp only [contains, mapKey_of_text? h, bind, Except.bind]

theorem assign_of_text? (h : a.text? = some text) (v : Value) : cell.assign s a v =
    (cell.entries.get? text).elim (.error (.keyNotFound text)) fun old =>
      .ok (old, { cell with entries := cell.entries.insert text v }) := by
  simp only [assign, mapKey_of_text? h, bind, Except.bind]
  cases cell.entries.get? text <;> rfl

theorem erase_of_text? (h : a.text? = some text) : cell.erase s a =
    .ok (cell.entries.get? text, if (cell.entries.get? text).isSome
      then { cell with entries := cell.entries.erase text, modified := true } else cell) := by
  simp only [erase, mapKey_of_text? h, bind, Except.bind]
  cases cell.entries.get? text <;> rfl

theorem shares_of_text? (ha : a.text? = some text) (hb : b.text? = some text) :
    cell.Shares s a b := by
  intro v w
  refine ⟨_, _, emplace_of_text? ha v, ?_, emplace_of_text? hb w, ?_, ?_⟩
  · simp [get_of_text? hb, OrderedMap.get?_insert]
  · simp [get_of_text? ha, OrderedMap.get?_insert]
  · exact OrderedMap.keys_insert_of_mem (OrderedMap.mem_keys_insert _ _ _)

theorem separates_of_text? (ha : a.text? = some text) (hb : b.text? = some other)
    (hne : text ≠ other) : cell.Separates s a b := by
  intro v w
  refine ⟨_, _, emplace_of_text? ha v, ?_, emplace_of_text? hb w, ?_, ?_⟩
  · simp [get_of_text? hb, OrderedMap.get?_insert, hne.symm]
  · simp [get_of_text? ha, OrderedMap.get?_insert, hne]
  · simp [get_of_text? hb, OrderedMap.get?_insert]

-- What is written under the second of two keys is read under the first or it is not.
theorem not_separates_of_shares (h : cell.Shares s a b) : ¬cell.Separates s a b := by
  intro hseparates
  obtain ⟨first, second, hfirst, _, hsecond, hget, _⟩ := h .void (.bool true)
  obtain ⟨first', second', hfirst', _, hsecond', hget', _⟩ := hseparates .void (.bool true)
  rw [hfirst] at hfirst'
  cases hfirst'
  rw [hsecond] at hsecond'
  cases hsecond'
  rw [hget] at hget'
  cases hget'

-- Numbers name one entry of a map when they are spelled alike, and two entries when they are not.
theorem shares_iff_spelledAlike (cell : MapCell) (s : Store) (ha : a.IsNumber) (hb : b.IsNumber) :
    (cell.Shares s a b ↔ Value.SpelledAlike a b) ∧
      (cell.Separates s a b ↔ ¬Value.SpelledAlike a b) ∧
      (¬Value.Misspelled a b → (Value.SpelledAlike a b ↔ a.equals b = true)) := by
  obtain ⟨text, htext⟩ := Value.exists_text? ha
  obtain ⟨other, hother⟩ := Value.exists_text? hb
  have halike : Value.SpelledAlike a b ↔ text = other := by
    rw [← Value.text?_eq_iff ha hb, htext, hother, Option.some.injEq]
  by_cases heq : text = other
  · subst heq
    have hshares : cell.Shares s a b := shares_of_text? htext hother
    exact ⟨iff_of_true hshares (halike.mpr rfl),
      iff_of_false (not_separates_of_shares hshares) (not_not_intro (halike.mpr rfl)),
      Value.spelledAlike_iff_equals ha hb⟩
  · have hseparates : cell.Separates s a b := separates_of_text? htext hother heq
    have hne := fun h => heq (halike.mp h)
    exact ⟨iff_of_false (fun h => not_separates_of_shares h hseparates) hne,
      iff_of_true hseparates hne, Value.spelledAlike_iff_equals ha hb⟩

-- A small integer and the double that it equals.
theorem shares_iff_spelledAlike_three :
    (Value.int 3).IsNumber ∧ (Value.float ⟨0x4008000000000000⟩).IsNumber ∧
      (new .map .any .any).Shares .empty (.int 3) (.float ⟨0x4008000000000000⟩) := by
  have hnumber : (Value.float ⟨0x4008000000000000⟩).IsNumber := .float (by decide)
  obtain ⟨hshares, _, hequals⟩ :=
    shares_iff_spelledAlike (new .map .any .any) .empty (.int 3) hnumber
  refine ⟨.int 3, hnumber, hshares.mpr ((hequals ?_).mpr (by decide +kernel))⟩
  have hvalue : Double.value ⟨0x4008000000000000⟩ = (3 : Int) :=
    (Double.toInt?_eq_some_iff (by decide)).mp (by decide +kernel)
  rintro (hzero | hlarge)
  · exact absurd hzero (by decide)
  · rw [hvalue] at hlarge
    norm_num at hlarge

-- A double past the integers that doubles hold exactly, and the integer that it is written as.
def largeDouble : Value := .float ⟨0x43b0000000000000⟩

def shortInteger : Value := .int 1152921504606847000

-- The zeros are equal and name two entries, and unequal numbers of one text name one.
theorem not_shares_equal_zeros :
    ((Value.float (.zero false)).equals (.float (.zero true)) = true ∧
      ¬(new .map .any .any).Shares .empty (.float (.zero false)) (.float (.zero true))) ∧
    shortInteger.equals largeDouble = false ∧
      (new .map .any .any).Shares .empty shortInteger largeDouble := by
  have hzero : (Value.float (.zero false)).text? = some "0" := by decide +kernel
  have hnegative : (Value.float (.zero true)).text? = some "-0" := by decide +kernel
  have hinteger : shortInteger.text? = some "1152921504606847000" := by decide +kernel
  have hdouble : largeDouble.text? = some "1152921504606847000" := by decide +kernel
  refine ⟨⟨by decide +kernel, fun h => not_separates_of_shares h ?_⟩, by decide +kernel,
    shares_of_text? hinteger hdouble⟩
  exact separates_of_text? hzero hnegative (by decide)

end MapCell

end Conductor
