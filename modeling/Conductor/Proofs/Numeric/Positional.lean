import Conductor.Proofs.Numeric.Shortest
import Mathlib.Data.List.Basic

namespace Conductor

-- The number that digits around a point spell. What else stands among them is passed over.
def spelled (chars : List Char) : ℚ :=
  Nat.ofDigitChars 10 (chars.filter Char.isDigit) 0 / 10 ^ (chars.length - (chars.idxOf '.' + 1))

theorem point_notMem {chars : List Char} (h : ∀ c ∈ chars, c.isDigit = true) : '.' ∉ chars :=
  fun hmem => absurd (h _ hmem) (by decide)

theorem spelled_digits {chars : List Char} (h : ∀ c ∈ chars, c.isDigit = true) :
    spelled chars = Nat.ofDigitChars 10 chars 0 := by
  rw [spelled, List.filter_eq_self.mpr h, List.idxOf_of_notMem (point_notMem h)]
  simp

theorem spelled_point {whole rest : List Char} (hwhole : ∀ c ∈ whole, c.isDigit = true)
    (hrest : ∀ c ∈ rest, c.isDigit = true) :
    spelled (whole ++ '.' :: rest) =
      Nat.ofDigitChars 10 (whole ++ rest) 0 / 10 ^ rest.length := by
  have hfilter : (whole ++ '.' :: rest).filter Char.isDigit = whole ++ rest := by
    rw [List.filter_append, List.filter_cons_of_neg (by decide), List.filter_eq_self.mpr hwhole,
      List.filter_eq_self.mpr hrest]
  have hlength : (whole ++ '.' :: rest).length - (whole.length + 1) = rest.length := by
    rw [List.length_append, List.length_cons]
    omega
  rw [spelled, hfilter, List.idxOf_append_of_notMem (point_notMem hwhole), List.idxOf_cons_self,
    Nat.add_zero, hlength]

namespace Decimal

-- The digits with zeros before them where they would not reach the point.
def padded (d : Decimal) : List Char :=
  List.replicate ((-d.power).toNat + 1 - (Nat.toDigits 10 d.digits).length) '0' ++
    Nat.toDigits 10 d.digits

variable {d : Decimal}

theorem isDigit_of_mem_digits {n zeros : Nat} {c : Char}
    (h : c ∈ Nat.toDigits 10 n ∨ c ∈ List.replicate zeros '0') : c.isDigit = true := by
  obtain h | h := h
  · exact Nat.isDigit_of_mem_toDigits (by decide) (by decide) h
  · rw [List.eq_of_mem_replicate h]
    rfl

theorem isDigit_of_mem_padded {c : Char} (h : c ∈ d.padded) : c.isDigit = true :=
  isDigit_of_mem_digits (List.mem_append.mp h).symm

theorem ofDigitChars_padded : Nat.ofDigitChars 10 d.padded 0 = d.digits := by
  rw [padded, Nat.ofDigitChars_append, Nat.ofDigitChars_replicate_zero, Nat.mul_zero,
    Nat.ofDigitChars_ten_toDigits]

theorem lt_length_padded : (-d.power).toNat < d.padded.length := by
  rw [padded, List.length_append, List.length_replicate]
  omega

-- A whole number is its digits and then zeros.
theorem toList_positional_of_nonneg (h : 0 ≤ d.power) :
    d.positional.toList = Nat.toDigits 10 d.digits ++ List.replicate d.power.toNat '0' := by
  rw [positional, if_pos h, String.toList_ofList]

-- The last of the padded digits of a fraction stand after the point.
theorem toList_positional_of_neg (h : d.power < 0) :
    ∃ whole rest : List Char, d.padded = whole ++ rest ∧ whole ≠ [] ∧
      rest.length = (-d.power).toNat ∧ d.positional.toList = whole ++ '.' :: rest := by
  have hlength := lt_length_padded (d := d)
  refine ⟨d.padded.take (d.padded.length - (-d.power).toNat),
    d.padded.drop (d.padded.length - (-d.power).toNat), (List.take_append_drop _ _).symm,
    ?_, ?_, ?_⟩
  · rw [Ne, List.take_eq_nil_iff, ← List.length_eq_zero_iff]
    omega
  · rw [List.length_drop]
    omega
  · rw [positional, if_neg (Int.not_le.mpr h), String.toList_ofList, padded]

-- The text of a decimal spells its number.
theorem spelled_positional (d : Decimal) : spelled d.positional.toList = d.value := by
  by_cases h : 0 ≤ d.power
  · obtain ⟨n, hn⟩ := Int.eq_ofNat_of_zero_le h
    rw [toList_positional_of_nonneg h, spelled_digits fun c hc =>
      isDigit_of_mem_digits (List.mem_append.mp hc), Nat.ofDigitChars_append,
      Nat.ofDigitChars_replicate_zero, Nat.ofDigitChars_ten_toDigits, value, hn, Int.toNat_natCast,
      zpow_natCast]
    push_cast
    ring
  · obtain ⟨whole, rest, hpadded, _, hplaces, hchars⟩ := toList_positional_of_neg (Int.not_le.mp h)
    have hdigit (c : Char) (hc : c ∈ whole ∨ c ∈ rest) : c.isDigit = true :=
      isDigit_of_mem_padded (hpadded ▸ List.mem_append.mpr hc)
    have hpower : d.power = -((-d.power).toNat : Int) := by omega
    rw [hchars, spelled_point (fun c hc => hdigit c (.inl hc)) fun c hc => hdigit c (.inr hc),
      ← hpadded, ofDigitChars_padded, hplaces, value]
    nth_rewrite 2 [hpower]
    rw [zpow_neg, zpow_natCast, div_eq_mul_inv]

-- The text starts with a digit, and it has a point only where the number is a fraction.
theorem positional_shape (d : Decimal) :
    (∃ c rest, d.positional.toList = c :: rest ∧ c.isDigit = true) ∧
      ∀ c ∈ d.positional.toList, c.isDigit = true ∨ c = '.' := by
  by_cases h : 0 ≤ d.power
  · rw [toList_positional_of_nonneg h]
    constructor
    · obtain ⟨c, rest, hdigits⟩ :=
        List.exists_cons_of_ne_nil (Nat.toDigits_ne_nil (n := d.digits) (b := 10))
      refine ⟨c, _, by rw [hdigits, List.cons_append], ?_⟩
      exact Nat.isDigit_of_mem_toDigits (by decide) (by decide) (hdigits ▸ List.mem_cons_self)
    · exact fun c hc => .inl (isDigit_of_mem_digits (List.mem_append.mp hc))
  · obtain ⟨whole, rest, hpadded, hne, _, hchars⟩ := toList_positional_of_neg (Int.not_le.mp h)
    have hdigit (c : Char) (hc : c ∈ whole ∨ c ∈ rest) : c.isDigit = true :=
      isDigit_of_mem_padded (hpadded ▸ List.mem_append.mpr hc)
    rw [hchars]
    constructor
    · obtain ⟨c, others, rfl⟩ := List.exists_cons_of_ne_nil hne
      exact ⟨c, _, rfl, hdigit c (.inl List.mem_cons_self)⟩
    · intro c hc
      obtain hc | hc := List.mem_append.mp hc
      · exact .inl (hdigit c (.inl hc))
      obtain rfl | hc := List.mem_cons.mp hc
      · exact .inr rfl
      · exact .inl (hdigit c (.inr hc))

theorem point_mem_positional (h : d.power < 0) : '.' ∈ d.positional.toList := by
  obtain ⟨whole, rest, _, _, _, hchars⟩ := toList_positional_of_neg h
  rw [hchars]
  simp

theorem toDigits_append_zeros {c : Nat} (hc : 0 < c) (p : Nat) :
    Nat.toDigits 10 c ++ List.replicate p '0' = Nat.toDigits 10 (c * 10 ^ p) := by
  induction p with
  | zero => simp
  | succ p ih =>
    have hpos : 0 < c * 10 ^ p := Nat.mul_pos hc (Nat.pow_pos (by decide))
    have hnext : c * 10 ^ (p + 1) = 10 * (c * 10 ^ p) + 0 := by ring
    have hzero : Nat.toDigits 10 0 = ['0'] := by decide
    rw [hnext, ← Nat.toDigits_append_toDigits (by decide) hpos (by decide), hzero, ← ih,
      List.replicate_succ', List.append_assoc]

-- A positive whole number has the text of the integer.
theorem positional_whole {c : Nat} (hc : 0 < c) (p : Nat) :
    (⟨c, p⟩ : Decimal).positional = toString (c * 10 ^ p) := by
  rw [← String.toList_inj, toList_positional_of_nonneg (Int.natCast_nonneg p),
    Nat.toString_eq_ofList_toDigits, String.toList_ofList, Int.toNat_natCast,
    toDigits_append_zeros hc]

end Decimal

-- A text of digits and points that starts with a digit.
structure Numeral (body : String) : Prop where
  starts : ∃ c rest, body.toList = c :: rest ∧ c.isDigit = true
  made : ∀ c ∈ body.toList, c.isDigit = true ∨ c = '.'

-- A text with a sign where the number is negative.
def signed (negative : Bool) (body : String) : String := (if negative then "-" else "") ++ body

theorem toList_signed (negative : Bool) (body : String) :
    (signed negative body).toList = (if negative then ['-'] else []) ++ body.toList := by
  rw [signed, String.toList_append]
  cases negative <;> rfl

theorem signed_inj {b c : Bool} {s t : String} (hs : Numeral s) (ht : Numeral t) :
    signed b s = signed c t ↔ b = c ∧ s = t := by
  constructor
  · intro h
    have hlist := congrArg String.toList h
    obtain ⟨p, _, hp, hpdigit⟩ := hs.starts
    obtain ⟨q, _, hq, hqdigit⟩ := ht.starts
    rw [toList_signed, toList_signed] at hlist
    cases b <;> cases c <;> simp only [Bool.false_eq_true, ite_false, ite_true, List.nil_append,
      List.singleton_append, List.cons.injEq, true_and] at hlist
    · exact ⟨rfl, String.toList_inj.mp hlist⟩
    · rw [hp] at hlist
      cases hlist
      exact absurd hpdigit (by decide)
    · rw [hq] at hlist
      cases hlist
      exact absurd hqdigit (by decide)
    · exact ⟨rfl, String.toList_inj.mp hlist⟩
  · rintro ⟨rfl, rfl⟩
    rfl

theorem Numeral.signed_ne {b c : Bool} {s : String} (hs : Numeral s) :
    signed b s ≠ signed c "inf" := by
  intro h
  have hmem : 'i' ∈ (signed b s).toList := by
    rw [h, toList_signed]
    exact List.mem_append_right _ (by decide)
  rw [toList_signed] at hmem
  obtain hsign | hbody := List.mem_append.mp hmem
  · cases b <;> simp at hsign
  · obtain hdigit | hpoint := hs.made 'i' hbody
    · exact absurd hdigit (by decide)
    · exact absurd hpoint (by decide)

theorem isDigit_of_mem_toString {n : Nat} {c : Char} (h : c ∈ (toString n).toList) :
    c.isDigit = true := by
  rw [Nat.toString_eq_ofList_toDigits, String.toList_ofList] at h
  exact Nat.isDigit_of_mem_toDigits (by decide) (by decide) h

-- The text of an integer.
theorem numeral_toString (n : Nat) : Numeral (toString n) ∧ spelled (toString n).toList = n := by
  refine ⟨⟨?_, fun c hc => .inl (isDigit_of_mem_toString hc)⟩, ?_⟩
  · have hne : (toString n).toList ≠ [] := by
      rw [Nat.toString_eq_ofList_toDigits, String.toList_ofList]
      exact Nat.toDigits_ne_nil
    obtain ⟨c, rest, hchars⟩ := List.exists_cons_of_ne_nil hne
    exact ⟨c, rest, hchars, isDigit_of_mem_toString (hchars ▸ List.mem_cons_self)⟩
  · rw [spelled_digits fun c hc => isDigit_of_mem_toString hc, Nat.toString_eq_ofList_toDigits,
      String.toList_ofList, Nat.ofDigitChars_ten_toDigits]

theorem toString_eq_signed (n : Int) :
    toString n = signed (decide (n < 0)) (toString n.natAbs) := by
  rw [Int.toString_eq_repr, Int.repr_eq_if, signed]
  by_cases h : 0 ≤ n
  · have hneg : ¬n < 0 := Int.not_lt.mpr h
    have habs : n.toNat = n.natAbs := by omega
    rw [if_pos h, decide_eq_false hneg, habs]
    rfl
  · have hneg : n < 0 := Int.not_le.mp h
    have habs : (-n).toNat = n.natAbs := by omega
    rw [if_neg h, decide_eq_true hneg, habs]
    rfl

-- Integers of one text are one integer.
theorem toString_int_inj {m n : Int} : toString m = toString n ↔ m = n := by
  refine ⟨fun h => ?_, fun h => h ▸ rfl⟩
  rw [toString_eq_signed, toString_eq_signed,
    signed_inj (numeral_toString _).1 (numeral_toString _).1] at h
  have habs : (m.natAbs : ℚ) = n.natAbs := by
    rw [← (numeral_toString m.natAbs).2, h.2, (numeral_toString n.natAbs).2]
  have hsize : m.natAbs = n.natAbs := by exact_mod_cast habs
  have hsign : m < 0 ↔ n < 0 := decide_eq_decide.mp h.1
  omega

-- Only a whole number has the text of an integer.
theorem Decimal.positional_eq_toString_iff {d : Decimal} (hd : 0 < d.value) {n : Nat} :
    d.positional = toString n ↔ ∃ c p : Nat, d = ⟨c, p⟩ ∧ c * 10 ^ p = n := by
  constructor
  · intro h
    have hwhole : 0 ≤ d.power := Int.not_lt.mp fun hneg => by
      have hpoint := point_mem_positional hneg
      rw [h] at hpoint
      exact absurd (isDigit_of_mem_toString hpoint) (by decide)
    have hvalue : d.value = n := by rw [← spelled_positional, h, (numeral_toString n).2]
    obtain ⟨c, power⟩ := d
    obtain ⟨p, rfl⟩ := Int.eq_ofNat_of_zero_le hwhole
    refine ⟨c, p, rfl, ?_⟩
    rw [value, zpow_natCast] at hvalue
    exact_mod_cast hvalue
  · rintro ⟨c, p, rfl, rfl⟩
    refine positional_whole (Nat.pos_of_ne_zero ?_) p
    rintro rfl
    simp [value] at hd

namespace Double

open Shortest

variable {x y : Double}

-- The text of a finite double without its sign.
def body (x : Double) : String :=
  if x.isZero then "0" else (decimal x.significand x.exponent).positional

theorem text_of_finite (hx : x.isFinite = true) : x.text = signed x.negative x.body := by
  have hmagnitude : x.magnitude < infiniteMagnitude := of_decide_eq_true hx
  have hnan : x.isNaN = false := decide_eq_false (by omega)
  have hinfinite : x.isInfinite = false := decide_eq_false (by omega)
  rw [text, signed, body]
  simp only [hnan, hinfinite, Bool.false_eq_true, ite_false]
  split <;> rfl

theorem text_of_infinite (hx : x.isInfinite = true) : x.text = signed x.negative "inf" := by
  have hmagnitude : x.magnitude = infiniteMagnitude := of_decide_eq_true hx
  have hnan : x.isNaN = false := decide_eq_false (by omega)
  rw [text, signed]
  simp only [hnan, hx, Bool.false_eq_true, ite_false, ite_true]

-- The text spells a number that rounds to the double.
theorem numeral_body (x : Double) :
    Numeral x.body ∧ Rounds x.magnitude (spelled x.body.toList) := by
  rw [body]
  split
  · rename_i hzero
    have hround := rounds_sizeAt 0
    obtain ⟨hnumeral, hspelled⟩ := numeral_toString 0
    rw [sizeAt_zero] at hround
    rw [show x.magnitude = 0 from of_decide_eq_true hzero]
    exact ⟨hnumeral, by simpa using hspelled ▸ hround⟩
  · rename_i hzero
    have hpos : 0 < x.magnitude := Nat.pos_of_ne_zero fun h => hzero (decide_eq_true h)
    obtain ⟨hstarts, hmade⟩ := (decimal x.significand x.exponent).positional_shape
    refine ⟨⟨hstarts, hmade⟩, ?_⟩
    rw [Decimal.spelled_positional]
    exact rounds_decimal hpos

theorem kind_of_not_isNaN (hx : x.isNaN = false) : x.isFinite = true ∨ x.isInfinite = true := by
  simp only [isNaN, isFinite, isInfinite, decide_eq_true_eq, decide_eq_false_iff_not] at hx ⊢
  omega

-- Doubles of one text are one double, but for the NaNs.
theorem text_inj (hx : x.isNaN = false) (hy : y.isNaN = false) : x.text = y.text ↔ x = y := by
  refine ⟨fun h => ?_, fun h => h ▸ rfl⟩
  obtain hx | hx := kind_of_not_isNaN hx <;> obtain hy | hy := kind_of_not_isNaN hy
  · rw [text_of_finite hx, text_of_finite hy,
      signed_inj x.numeral_body.1 y.numeral_body.1] at h
    refine ext_sign_magnitude h.1 (x.numeral_body.2.unique ?_)
    rw [h.2]
    exact y.numeral_body.2
  · rw [text_of_finite hx, text_of_infinite hy] at h
    exact absurd h x.numeral_body.1.signed_ne
  · rw [text_of_infinite hx, text_of_finite hy] at h
    exact absurd h.symm y.numeral_body.1.signed_ne
  · have hmagnitude : x.magnitude = y.magnitude :=
      (of_decide_eq_true hx).trans (of_decide_eq_true hy).symm
    refine ext_sign_magnitude ?_ hmagnitude
    rw [text_of_infinite hx, text_of_infinite hy] at h
    have hlist := congrArg String.toList h
    rw [toList_signed, toList_signed] at hlist
    cases hxsign : x.negative <;> cases hysign : y.negative <;> simp [hxsign, hysign] at hlist ⊢

-- The integer that a double is written as: it rounds to the double, no other that does ends in more
-- zeros, and of those that end in as many none is nearer, or as near and larger.
structure Spells (x : Double) (n : Int) : Prop where
  rounds : ofInt n = x
  short : ∀ (m : Int) (p : Nat), ofInt m = x → 10 ^ p ∣ m → 10 ^ p ∣ n
  near : ∀ m : Int, ofInt m = x → (∀ p : Nat, (10 : Int) ^ p ∣ n → 10 ^ p ∣ m) →
    |n - x.value| < |m - x.value| ∨ |n - x.value| = |m - x.value| ∧ |m| ≤ |n|

theorem value_eq_sign (x : Double) {m : Int} (h : x.negative = decide (m < 0)) :
    |m - x.value| = |(m.natAbs : ℚ) - sizeAt x.magnitude| := by
  rw [value, h]
  by_cases hm : m < 0
  · have hcast : (m.natAbs : ℚ) = -m := by
      rw [Nat.cast_natAbs, abs_of_neg hm]
      push_cast
      rfl
    rw [if_pos (decide_eq_true hm), hcast, ← abs_neg]
    congr 1
    ring
  · have hcast : (m.natAbs : ℚ) = m := by
      rw [Nat.cast_natAbs, abs_of_nonneg (Int.not_lt.mp hm)]
    rw [if_neg (by simpa using hm), hcast]

theorem pow_dvd_natAbs {m : Int} {p : Nat} : 10 ^ p ∣ m.natAbs ↔ (10 : Int) ^ p ∣ m := by
  rw [← Int.natCast_dvd]
  push_cast
  rfl

-- Every size in the interval is that of an integer of the double's sign.
theorem exists_ofInt (hx : x.isFinite = true) (hpos : 0 < x.magnitude) {j : Nat}
    (hj : Rounds x.magnitude j) : ∃ m : Int, ofInt m = x ∧ m.natAbs = j := by
  have hjpos : 0 < j := by exact_mod_cast hj.pos hpos
  cases hsign : x.negative
  · refine ⟨j, (ofInt_eq_iff hx).mpr ⟨?_, hj⟩, Int.natAbs_natCast j⟩
    rw [hsign, decide_eq_false (by omega)]
  · refine ⟨-j, (ofInt_eq_iff hx).mpr ⟨?_, by simpa using hj⟩, by simp⟩
    rw [hsign, decide_eq_true (by omega)]

-- Among the integers of the double's sign that is a matter of their sizes.
theorem spells_iff_whole (hx : x.isFinite = true) (hpos : 0 < x.magnitude) {n : Int} :
    x.Spells n ↔ x.negative = decide (n < 0) ∧ Whole x.magnitude n.natAbs := by
  have habs (m : Int) : |m| ≤ |n| ↔ m.natAbs ≤ n.natAbs := by
    rw [Int.abs_eq_natAbs, Int.abs_eq_natAbs, Int.ofNat_le]
  constructor
  · intro h
    obtain ⟨hsign, hround⟩ := (ofInt_eq_iff hx).mp h.rounds
    refine ⟨hsign, hround, fun j q hj hq => ?_, fun j hj hzeros => ?_⟩
    · obtain ⟨m, hm, rfl⟩ := exists_ofInt hx hpos hj
      exact pow_dvd_natAbs.mpr (h.short m q hm (pow_dvd_natAbs.mp hq))
    · obtain ⟨m, hm, rfl⟩ := exists_ofInt hx hpos hj
      have hnear := h.near m hm fun p hp =>
        pow_dvd_natAbs.mp (hzeros p (pow_dvd_natAbs.mpr hp))
      rwa [value_eq_sign x hsign, value_eq_sign x ((ofInt_eq_iff hx).mp hm).1, habs] at hnear
  · rintro ⟨hsign, h⟩
    refine ⟨(ofInt_eq_iff hx).mpr ⟨hsign, h.rounds⟩, fun m p hm hp => ?_, fun m hm hzeros => ?_⟩
    · exact pow_dvd_natAbs.mp (h.short _ p ((ofInt_eq_iff hx).mp hm).2 (pow_dvd_natAbs.mpr hp))
    · obtain ⟨hmsign, hmround⟩ := (ofInt_eq_iff hx).mp hm
      rw [value_eq_sign x hsign, value_eq_sign x hmsign, habs]
      exact h.near _ hmround fun q hq => pow_dvd_natAbs.mpr (hzeros q (pow_dvd_natAbs.mp hq))

-- The zero without a sign is written as the integer, the other zero as none.
theorem spells_zero_iff (hx : x.magnitude = 0) {n : Int} :
    x.Spells n ↔ x.negative = false ∧ n = 0 := by
  have hfinite : x.isFinite = true := by
    rw [isFinite, hx]
    decide
  have hround (m : Int) : ofInt m = x ↔ x.negative = false ∧ m = 0 := by
    rw [ofInt_eq_iff hfinite, hx, rounds_zero_iff, Int.natAbs_eq_zero]
    refine and_congr_left fun hm => ?_
    rw [hm]
    rfl
  constructor
  · exact fun h => (hround n).mp h.rounds
  · intro h
    have hn := (hround n).mpr h
    obtain ⟨_, rfl⟩ := h
    refine ⟨hn, fun m p _ _ => dvd_zero _, fun m hm _ => ?_⟩
    rw [((hround m).mp hm).2]
    exact .inr ⟨rfl, le_refl _⟩

-- A small double is written as the integer that it equals.
theorem spells_iff_value (hx : x.isFinite = true) (hzero : x ≠ zero true)
    (hsmall : |x.value| < 2 ^ 54) {n : Int} : x.Spells n ↔ x.value = n := by
  have hsize : sizeAt x.magnitude < 2 ^ 54 := by
    have habs : |x.value| = sizeAt x.magnitude := by
      rw [value]
      cases x.negative <;> simp [abs_of_nonneg (sizeAt_nonneg _)]
    exact habs ▸ hsmall
  by_cases hmagnitude : x.magnitude = 0
  · have hsign : x.negative = false := by
      by_contra hnegative
      refine hzero (ext_sign_magnitude ?_ ?_)
      · rw [Bool.eq_true_of_not_eq_false hnegative]
        decide
      · rw [hmagnitude]
        decide
    have hvalue : x.value = 0 := by simp [value, hmagnitude, sizeAt_zero]
    rw [spells_zero_iff hmagnitude, hvalue]
    simp [hsign, eq_comm]
  · have hpos := Nat.pos_of_ne_zero hmagnitude
    have hsizepos : 0 < sizeAt x.magnitude :=
      (sizeAt_nonneg _).lt_of_ne fun h => hmagnitude (sizeAt_eq_zero.mp h.symm)
    rw [spells_iff_whole hx hpos, whole_iff_eq_sizeAt hsize, Nat.cast_natAbs, value]
    cases x.negative
    · rw [if_neg Bool.false_ne_true, eq_comm (a := false), decide_eq_false_iff_not, not_lt]
      constructor
      · rintro ⟨hn, habs⟩
        rw [← habs, abs_of_nonneg hn]
      · intro hn
        have hnonneg : 0 ≤ n := by exact_mod_cast hn ▸ hsizepos.le
        exact ⟨hnonneg, by rw [abs_of_nonneg hnonneg, hn]⟩
    · rw [if_pos rfl, eq_comm (a := true), decide_eq_true_eq]
      constructor
      · rintro ⟨hn, habs⟩
        rw [← habs, abs_of_neg hn]
        push_cast
        ring
      · intro hn
        have hcast : (n : ℚ) < 0 := by linarith
        have hneg : n < 0 := by exact_mod_cast hcast
        refine ⟨hneg, ?_⟩
        rw [abs_of_neg hneg]
        push_cast
        linarith

-- Integers of 64 bits round to no infinity.
theorem isFinite_ofInt {n : Int} (hn : n.natAbs ≤ 2 ^ 63) : (ofInt n).isFinite = true := by
  have hbound : n.natAbs < UInt64.size := by
    rw [UInt64.size]
    omega
  rw [isFinite, magnitude_ofInt hbound]
  exact decide_eq_true (nearestMagnitude_lt hbound)

-- The text of an integer is that of a double exactly when the double is written as the integer.
theorem text_eq_toString_iff (hx : x.isNaN = false) {n : Int} (hn : n.natAbs ≤ 2 ^ 63) :
    x.text = toString n ↔ x.Spells n := by
  obtain ⟨hnumeral, hspelled⟩ := numeral_toString n.natAbs
  rw [toString_eq_signed]
  obtain hfinite | hinfinite := kind_of_not_isNaN hx
  · rw [text_of_finite hfinite, signed_inj x.numeral_body.1 hnumeral]
    by_cases hzero : x.magnitude = 0
    · have hbody : x.body = toString 0 := if_pos (decide_eq_true hzero)
      have hsame : x.body = toString n.natAbs ↔ n = 0 := by
        constructor
        · intro h
          rw [← h, hbody, (numeral_toString 0).2] at hspelled
          exact Int.natAbs_eq_zero.mp (by exact_mod_cast hspelled.symm)
        · rintro rfl
          exact hbody
      rw [spells_zero_iff hzero, hsame]
      refine and_congr_left fun h => ?_
      rw [h]
      rfl
    · have hpos := Nat.pos_of_ne_zero hzero
      have hbody : x.body = (decimal x.significand x.exponent).positional :=
        if_neg fun h => hzero (of_decide_eq_true h)
      rw [spells_iff_whole hfinite hpos, hbody, whole_iff hpos hn]
      refine and_congr_right fun _ => Decimal.positional_eq_toString_iff ?_
      exact (rounds_decimal hpos).pos hpos
  · rw [text_of_infinite hinfinite]
    refine iff_of_false (fun h => hnumeral.signed_ne h.symm) fun h => ?_
    have hfinite := h.rounds ▸ isFinite_ofInt hn
    have hmagnitude : x.magnitude = infiniteMagnitude := of_decide_eq_true hinfinite
    exact Nat.ne_of_lt (of_decide_eq_true hfinite) hmagnitude

end Double

end Conductor
