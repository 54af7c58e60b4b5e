import Conductor.Arithmetic
import Conductor.Proofs.Numeric.Rounding
import Mathlib.Logic.ExistsUnique

namespace Conductor

namespace Value

-- A number other than NaN.
inductive IsNumber : Value → Prop
  | int (n : Int64) : IsNumber (int n)
  | float {x : Double} (h : x.isNaN = false) : IsNumber (float x)

inductive IsText : Value → Prop
  | string (s : String) : IsText (string s)

-- Values that have an order among each other, none of them NaN.
def Comparable (values : List Value) : Prop :=
  (∀ v ∈ values, v.IsNumber) ∨ ∀ v ∈ values, v.IsText

-- An integer and the double that it rounds to, where they are not equal.
def Blurred : Value → Value → Prop
  | int n, float x | float x, int n =>
    (Double.ofInt n.toInt).equals x = true ∧ x.toInt64? ≠ some n
  | _, _ => False

-- Two integers in descending order with a double between them that both round to.
def Merged (a b c : Value) : Prop :=
  ∃ m x n, a = int m ∧ b = float x ∧ c = int n ∧ n.toInt < m.toInt ∧
    (Double.ofInt m.toInt).equals x = true ∧ (Double.ofInt n.toInt).equals x = true

-- The place of a number in the order of the doubles.
def rank : Value → Int
  | int n => (Double.ofInt n.toInt).rank
  | float x => x.rank
  | _ => 0

-- The order of two numbers or of two texts.
def ordering : Value → Value → Ordering
  | int m, int n => compare m.toInt n.toInt
  | string a, string b => compare a b
  | v, w => compare v.rank w.rank

variable {a b c : Value}

theorem natAbs_toInt_lt (n : Int64) : n.toInt.natAbs < UInt64.size := by
  have hlow := n.le_toInt
  have hhigh := n.toInt_lt
  simp only [UInt64.size]
  omega

theorem isNaN_ofInt (n : Int64) : (Double.ofInt n.toInt).isNaN = false :=
  Double.isNaN_ofInt (natAbs_toInt_lt n)

theorem rank_int_mono {m n : Int64} (h : m.toInt ≤ n.toInt) : (int m).rank ≤ (int n).rank :=
  Double.rank_ofInt_mono (natAbs_toInt_lt m) (natAbs_toInt_lt n) h

theorem toInt64?_eq_some_iff {x : Double} {n : Int64} :
    x.toInt64? = some n ↔ x.toInt? = some n.toInt := by
  rw [Double.toInt64?]
  cases x.toInt? with
  | none => simp
  | some k =>
    simp only [Option.bind_eq_bind, Option.bind_some, Option.some.injEq]
    constructor
    · intro h
      split at h
      · rename_i hexact
        cases h
        exact hexact.symm
      · cases h
    · rintro rfl
      rw [Int64.ofInt_toInt, if_pos rfl]

theorem rank_int_of_toInt64? {x : Double} {n : Int64} (h : x.toInt64? = some n) :
    (int n).rank = (float x).rank :=
  Double.rank_ofInt_of_toInt? (toInt64?_eq_some_iff.mp h) (natAbs_toInt_lt n)

theorem equals_ofInt_iff {x : Double} {n : Int64} (hx : x.isNaN = false) :
    (Double.ofInt n.toInt).equals x = true ↔ (int n).rank = (float x).rank := by
  simp [Double.equals, hx, isNaN_ofInt, rank]

theorem Comparable.pair {v w : Value} {values : List Value} (h : Comparable values)
    (hv : v ∈ values) (hw : w ∈ values) : v.IsNumber ∧ w.IsNumber ∨ v.IsText ∧ w.IsText :=
  h.imp (fun h => ⟨h v hv, h w hw⟩) fun h => ⟨h v hv, h w hw⟩

theorem order?_eq (h : a.IsNumber ∧ b.IsNumber ∨ a.IsText ∧ b.IsText) :
    a.order? b = some (some (ordering a b)) := by
  obtain ⟨ha, hb⟩ | ⟨ha, hb⟩ := h
  · cases ha <;> cases hb <;>
      simp_all [order?, Numbers.of?, asDouble?, Double.compare?, isNaN_ofInt, ordering, rank]
  · cases ha
    cases hb
    rfl

-- Equal numbers stand in one place, and numbers in one place are equal or blurred.
theorem equals_iff (h : a.IsNumber ∧ b.IsNumber ∨ a.IsText ∧ b.IsText) :
    a.equals b = true ↔ ordering a b = .eq ∧ ¬Blurred a b := by
  have hmixed (n : Int64) {x : Double} (hx : x.isNaN = false) :
      x.toInt64? = some n ↔ (int n).rank = (float x).rank ∧ ¬Blurred (int n) (float x) := by
    rw [Blurred, equals_ofInt_iff hx]
    constructor
    · exact fun h => ⟨rank_int_of_toInt64? h, fun hblurred => hblurred.2 h⟩
    · exact fun h => Decidable.byContradiction fun hne => h.2 ⟨h.1, hne⟩
  obtain ⟨ha, hb⟩ | ⟨ha, hb⟩ := h
  · cases ha with
    | int m =>
      cases hb with
      | int n => simp [equals, ordering, Blurred, Int64.toInt_inj]
      | @float x hx =>
        simp only [equals, beq_iff_eq, ordering, Int.compare_eq_eq]
        exact hmixed m hx
    | @float x hx =>
      cases hb with
      | int n =>
        simp only [equals, beq_iff_eq, ordering, Int.compare_eq_eq, eq_comm (a := (float x).rank)]
        exact hmixed n hx
      | float hy => simp [equals, Double.equals, hx, hy, ordering, rank, Blurred]
  · cases ha
    cases hb
    simp [equals, ordering, Blurred]

theorem ordering_of_blurred (h : Blurred a b) : ordering a b = .eq := by
  have hmixed {n : Int64} {x : Double} (h : Blurred (int n) (float x)) :
      (int n).rank = (float x).rank := by
    have hequals := h.1
    simp only [Double.equals, Bool.and_eq_true, beq_iff_eq] at hequals
    exact hequals.2
  cases a <;> cases b <;> first | exact absurd h id | skip
  · exact Int.compare_eq_eq.mpr (hmixed h)
  · exact Int.compare_eq_eq.mpr (hmixed h).symm

theorem ordering_eq_compare_rank (ha : a.IsNumber) (hb : b.IsNumber) :
    ordering a b = compare a.rank b.rank ∨ ∃ m n, a = int m ∧ b = int n := by
  cases ha with
  | int m =>
    cases hb with
    | int n => exact .inr ⟨m, n, rfl, rfl⟩
    | float => exact .inl rfl
  | float => cases hb <;> exact .inl rfl

theorem ordering_of_rank_lt (ha : a.IsNumber) (hb : b.IsNumber) (h : a.rank < b.rank) :
    ordering a b = .lt := by
  obtain heq | ⟨m, n, rfl, rfl⟩ := ordering_eq_compare_rank ha hb
  · rw [heq, Int.compare_eq_lt]
    exact h
  · refine Int.compare_eq_lt.mpr (Int.lt_of_not_ge fun hle => ?_)
    exact Int.not_le.mpr h (rank_int_mono hle)

theorem rank_le_of_ordering (ha : a.IsNumber) (hb : b.IsNumber) (h : ordering a b ≠ .gt) :
    a.rank ≤ b.rank := by
  obtain heq | ⟨m, n, rfl, rfl⟩ := ordering_eq_compare_rank ha hb
  · rw [heq, Ne, Int.compare_eq_gt] at h
    exact Int.not_lt.mp h
  · refine rank_int_mono (Int.not_lt.mp fun hlt => h ?_)
    exact Int.compare_eq_gt.mpr hlt

-- Among numbers in one place only integers come one before the other.
theorem ordering_of_rank_eq (ha : a.IsNumber) (hb : b.IsNumber) (h : a.rank = b.rank) :
    ordering a b = .eq ∨ ∃ m n, a = int m ∧ b = int n ∧ ordering a b = compare m.toInt n.toInt := by
  obtain heq | ⟨m, n, rfl, rfl⟩ := ordering_eq_compare_rank ha hb
  · rw [heq, Int.compare_eq_eq]
    exact .inl h
  · exact .inr ⟨m, n, rfl, rfl, rfl⟩

theorem ordering_lt_trans_of_numbers (ha : a.IsNumber) (hb : b.IsNumber) (hc : c.IsNumber)
    (hab : ordering a b = .lt) (hbc : ordering b c = .lt) : ordering a c = .lt := by
  have hle := rank_le_of_ordering ha hb (by rw [hab]; nofun)
  have hle' := rank_le_of_ordering hb hc (by rw [hbc]; nofun)
  obtain hlt | heq := Int.lt_or_eq_of_le (Int.le_trans hle hle')
  · exact ordering_of_rank_lt ha hc hlt
  obtain hsame | ⟨m, k, rfl, rfl, hmk⟩ := ordering_of_rank_eq ha hb (by omega)
  · rw [hsame] at hab
    cases hab
  obtain hsame | ⟨_, n, heqk, rfl, hkn⟩ := ordering_of_rank_eq hb hc (by omega)
  · rw [hsame] at hbc
    cases hbc
  cases heqk
  rw [hmk, Int.compare_eq_lt] at hab
  rw [hkn, Int.compare_eq_lt] at hbc
  exact Int.compare_eq_lt.mpr (Int.lt_trans hab hbc)

theorem ordering_le_trans_iff_of_numbers (ha : a.IsNumber) (hb : b.IsNumber) (hc : c.IsNumber)
    (hab : ordering a b ≠ .gt) (hbc : ordering b c ≠ .gt) :
    ordering a c ≠ .gt ↔ ¬Merged a b c := by
  constructor
  · rintro h ⟨m, x, n, rfl, rfl, rfl, hlt, _⟩
    exact h (Int.compare_eq_gt.mpr hlt)
  intro hmerged hgt
  have hle := rank_le_of_ordering ha hb hab
  have hle' := rank_le_of_ordering hb hc hbc
  obtain hlt | heq := Int.lt_or_eq_of_le (Int.le_trans hle hle')
  · rw [ordering_of_rank_lt ha hc hlt] at hgt
    cases hgt
  obtain hsame | ⟨m, n, rfl, rfl, hmn⟩ := ordering_of_rank_eq ha hc heq
  · rw [hsame] at hgt
    cases hgt
  rw [hmn, Int.compare_eq_gt] at hgt
  cases hb with
  | int k =>
    have hmk : ¬k.toInt < m.toInt := fun hlt => hab (Int.compare_eq_gt.mpr hlt)
    have hkn : ¬n.toInt < k.toInt := fun hlt => hbc (Int.compare_eq_gt.mpr hlt)
    omega
  | @float x hx =>
    refine hmerged ⟨m, x, n, rfl, rfl, rfl, hgt, ?_, ?_⟩
    · exact (equals_ofInt_iff hx).mpr (by omega)
    · exact (equals_ofInt_iff hx).mpr (by omega)

theorem ordering_lt_trans (h : Comparable [a, b, c]) (hab : ordering a b = .lt)
    (hbc : ordering b c = .lt) : ordering a c = .lt := by
  obtain h | h := h
  · exact ordering_lt_trans_of_numbers (h a (by simp)) (h b (by simp)) (h c (by simp)) hab hbc
  · obtain ⟨s⟩ := h a (by simp)
    obtain ⟨t⟩ := h b (by simp)
    obtain ⟨u⟩ := h c (by simp)
    have hst : compare s t = .lt := hab
    have htu : compare t u = .lt := hbc
    have hsu : compare s u = .lt := Std.TransCmp.lt_trans hst htu
    exact hsu

theorem ordering_le_trans_iff (h : Comparable [a, b, c]) (hab : ordering a b ≠ .gt)
    (hbc : ordering b c ≠ .gt) : ordering a c ≠ .gt ↔ ¬Merged a b c := by
  obtain h | h := h
  · exact ordering_le_trans_iff_of_numbers (h a (by simp)) (h b (by simp)) (h c (by simp)) hab hbc
  · obtain ⟨s⟩ := h a (by simp)
    obtain ⟨t⟩ := h b (by simp)
    obtain ⟨u⟩ := h c (by simp)
    have hmerged : ¬Merged (string s) (string t) (string u) := by
      rintro ⟨_, _, _, hcontra, _⟩
      cases hcontra
    refine iff_of_true ?_ hmerged
    have hst : (compare s t).isLE = true := Ordering.isLE_iff_ne_gt.mpr hab
    have htu : (compare t u).isLE = true := Ordering.isLE_iff_ne_gt.mpr hbc
    have hsu : (compare s u).isLE = true := Std.TransCmp.isLE_trans hst htu
    exact Ordering.isLE_iff_ne_gt.mp hsu

end Value

namespace BinaryOp

open Value

-- The operator evaluates to true.
def Accepts (op : BinaryOp) (s : Store) (a b : Value) : Prop := op.apply s a b = .ok (.bool true)

instance (op : BinaryOp) (s : Store) (a b : Value) : Decidable (op.Accepts s a b) :=
  inferInstanceAs (Decidable (_ = _))

-- The laws of a linear order, up to what rounding an integer blurs.
structure Ordered (s : Store) (a b c : Value) : Prop where
  defined : ∀ op ∈ [lt, le, gt, ge, eq], ∃ r, op.apply s a b = .ok (.bool r)
  one : ¬Blurred a b → ∃! op, op ∈ [lt, eq, gt] ∧ op.Accepts s a b
  none : Blurred a b → ∀ op ∈ [lt, eq, gt], ¬op.Accepts s a b
  le_iff : le.Accepts s a b ↔ lt.Accepts s a b ∨ eq.Accepts s a b ∨ Blurred a b
  ge_iff : ge.Accepts s a b ↔ gt.Accepts s a b ∨ eq.Accepts s a b ∨ Blurred a b
  lt_trans : lt.Accepts s a b → lt.Accepts s b c → lt.Accepts s a c
  le_trans : le.Accepts s a b → le.Accepts s b c → (le.Accepts s a c ↔ ¬Merged a b c)

section Laws

variable {s : Store} {a b c : Value}

theorem apply_of_order {op : BinaryOp} (hop : op ∈ [lt, le, gt, ge]) {order : Ordering}
    (h : a.order? b = some (some order)) : op.apply s a b = .ok (.bool (op.holds order)) := by
  simp only [List.mem_cons, List.not_mem_nil, or_false] at hop
  obtain rfl | rfl | rfl | rfl := hop <;> simp [apply, eval?, h, divides]

theorem accepts_iff (h : a.IsNumber ∧ b.IsNumber ∨ a.IsText ∧ b.IsText) :
    (lt.Accepts s a b ↔ ordering a b = .lt) ∧ (le.Accepts s a b ↔ ordering a b ≠ .gt) ∧
      (gt.Accepts s a b ↔ ordering a b = .gt) ∧ (ge.Accepts s a b ↔ ordering a b ≠ .lt) ∧
      (eq.Accepts s a b ↔ ordering a b = .eq ∧ ¬Blurred a b) := by
  have horder := order?_eq h
  have hequals : eq.Accepts s a b ↔ a.equals b = true := by simp [Accepts, apply, eval?, divides]
  rw [hequals, equals_iff h]
  simp only [Accepts]
  rw [apply_of_order (by simp) horder, apply_of_order (by simp) horder,
    apply_of_order (by simp) horder, apply_of_order (by simp) horder]
  cases ordering a b <;> simp [holds, Ordering.isLT, Ordering.isLE, Ordering.isGT, Ordering.isGE]

-- The comparisons are those of a linear order, but for an integer and a double that it is rounded
-- to without being equal to it.
theorem ordered_of_comparable (s : Store) (h : Comparable [a, b, c]) : Ordered s a b c := by
  have hab := h.pair (v := a) (w := b) (by simp) (by simp)
  obtain ⟨hlt, hle, hgt, hge, heq⟩ := accepts_iff (s := s) hab
  obtain ⟨hltbc, hlebc, _⟩ := accepts_iff (s := s) (h.pair (v := b) (w := c) (by simp) (by simp))
  obtain ⟨hltac, hleac, _⟩ := accepts_iff (s := s) (h.pair (v := a) (w := c) (by simp) (by simp))
  have hblurred := @ordering_of_blurred a b
  refine ⟨fun op hop => ?_, fun hsharp => ?_, fun hb op hop => ?_, ?_, ?_, ?_, ?_⟩
  · by_cases heq : op = eq
    · exact ⟨_, by rw [heq]; rfl⟩
    · refine ⟨_, apply_of_order ?_ (order?_eq hab)⟩
      simpa [heq] using hop
  · simp only [List.mem_cons, List.not_mem_nil, or_false]
    cases horder : ordering a b
    · refine ⟨lt, ⟨by simp, hlt.mpr horder⟩, ?_⟩
      rintro op ⟨rfl | rfl | rfl, hop⟩ <;> simp_all
    · refine ⟨eq, ⟨by simp, heq.mpr ⟨horder, hsharp⟩⟩, ?_⟩
      rintro op ⟨rfl | rfl | rfl, hop⟩ <;> simp_all
    · refine ⟨gt, ⟨by simp, hgt.mpr horder⟩, ?_⟩
      rintro op ⟨rfl | rfl | rfl, hop⟩ <;> simp_all
  · simp only [List.mem_cons, List.not_mem_nil, or_false] at hop
    obtain rfl | rfl | rfl := hop <;> simp [hlt, heq, hgt, hblurred hb, hb]
  · rw [hle, hlt, heq]
    cases horder : ordering a b <;> by_cases hb : Blurred a b <;> simp_all
  · rw [hge, hgt, heq]
    cases horder : ordering a b <;> by_cases hb : Blurred a b <;> simp_all
  · exact fun hfirst hsecond => hltac.mpr (ordering_lt_trans h (hlt.mp hfirst) (hltbc.mp hsecond))
  · exact fun hfirst hsecond =>
      hleac.trans (ordering_le_trans_iff h (hle.mp hfirst) (hlebc.mp hsecond))

end Laws

-- The least positive integer that is no double, the double that it rounds to, and that one's value.
def oddInteger : Value := .int 9007199254740993

def evenDouble : Value := .float ⟨0x4340000000000000⟩

def evenInteger : Value := .int 9007199254740992

theorem comparable_evenDouble : Comparable [oddInteger, evenDouble, evenInteger] := by
  refine .inl fun v hv => ?_
  simp only [List.mem_cons, List.not_mem_nil, or_false] at hv
  obtain rfl | rfl | rfl := hv
  · exact .int _
  · exact .float (by decide)
  · exact .int _

theorem ordered_of_comparable_evenDouble :
    Comparable [oddInteger, evenDouble, evenInteger] ∧
      Ordered .empty oddInteger evenDouble evenInteger :=
  ⟨comparable_evenDouble, ordered_of_comparable .empty comparable_evenDouble⟩

-- None of the three comparisons holds of the first two, and the descent from the first to the last
-- passes for an ascent by way of the double.
theorem not_linear_at_evenDouble :
    Comparable [oddInteger, evenDouble, evenInteger] ∧
      (¬∃! op, op ∈ [lt, eq, gt] ∧ op.Accepts .empty oddInteger evenDouble) ∧
      (le.Accepts .empty oddInteger evenDouble ∧
        ¬(lt.Accepts .empty oddInteger evenDouble ∨ eq.Accepts .empty oddInteger evenDouble)) ∧
      le.Accepts .empty oddInteger evenDouble ∧ le.Accepts .empty evenDouble evenInteger ∧
        ¬le.Accepts .empty oddInteger evenInteger := by
  have hnone : ∀ op ∈ [lt, eq, gt], ¬op.Accepts .empty oddInteger evenDouble := by decide +kernel
  refine ⟨comparable_evenDouble, ?_, by decide +kernel, by decide +kernel⟩
  rintro ⟨op, ⟨hop, haccepts⟩, _⟩
  exact hnone op hop haccepts

end BinaryOp

end Conductor
