import Conductor.Proofs.Equality
import Conductor.Proofs.Store.Samples

namespace Conductor

namespace Value

-- Two operands as the operators tell them apart.
inductive Operands : Value → Value → Prop
  | texts (s t : String) : Operands (string s) (string t)
  | ints (m n : Int64) : Operands (int m) (int n)
  | floats {a b : Value} {x y : Double} (hx : a.asDouble? = some x) (hy : b.asDouble? = some y)
      (hfloat : a.kind? = some .float ∨ b.kind? = some .float) : Operands a b
  | others {a b : Value} (hnumbers : ¬(a.isNumeric = true ∧ b.isNumeric = true))
      (htexts : ¬(a.kind? = some .string ∧ b.kind? = some .string)) : Operands a b

variable {a b : Value} {x y : Double}

theorem exists_asDouble?_iff : (∃ x, a.asDouble? = some x) ↔ a.isNumeric = true := by
  cases a <;> simp [asDouble?, isNumeric]

theorem isNumeric_of_asDouble? (h : a.asDouble? = some x) : a.isNumeric = true :=
  exists_asDouble?_iff.mp ⟨x, h⟩

theorem asDouble?_eq_none (h : ¬a.isNumeric = true) : a.asDouble? = none := by
  cases hdouble : a.asDouble? with
  | none => rfl
  | some x => exact absurd (isNumeric_of_asDouble? hdouble) h

theorem kind?_eq_bool_iff : a.kind? = some .bool ↔ ∃ p, a = bool p := by
  cases a <;> simp [kind?]

theorem kind?_eq_int_iff : a.kind? = some .int ↔ ∃ n, a = int n := by
  cases a <;> simp [kind?]

theorem kind?_eq_string_iff : a.kind? = some .string ↔ ∃ t, a = string t := by
  cases a <;> simp [kind?]

theorem isNumeric_iff : a.isNumeric = true ↔ a.kind? = some .int ∨ a.kind? = some .float := by
  cases a <;> simp [isNumeric, kind?]

theorem operands (a b : Value) : Operands a b := by
  by_cases htexts : a.kind? = some .string ∧ b.kind? = some .string
  · obtain ⟨⟨s, rfl⟩, ⟨t, rfl⟩⟩ := htexts.imp kind?_eq_string_iff.mp kind?_eq_string_iff.mp
    exact .texts s t
  by_cases hnumbers : a.isNumeric = true ∧ b.isNumeric = true
  · obtain ⟨⟨x, hx⟩, ⟨y, hy⟩⟩ :=
      hnumbers.imp exists_asDouble?_iff.mpr exists_asDouble?_iff.mpr
    obtain ⟨ha, hb⟩ := hnumbers.imp isNumeric_iff.mp isNumeric_iff.mp
    by_cases hfloat : a.kind? = some .float ∨ b.kind? = some .float
    · exact .floats hx hy hfloat
    · obtain ⟨hfirst, hsecond⟩ := not_or.mp hfloat
      obtain ⟨m, rfl⟩ := kind?_eq_int_iff.mp (ha.resolve_right hfirst)
      obtain ⟨n, rfl⟩ := kind?_eq_int_iff.mp (hb.resolve_right hsecond)
      exact .ints m n
  · exact .others hnumbers htexts

end Value

namespace Numbers

variable {a b : Value} {x y : Double}

theorem of?_floats (hx : a.asDouble? = some x) (hy : b.asDouble? = some y)
    (hfloat : a.kind? = some .float ∨ b.kind? = some .float) : of? a b = some (.floats x y) := by
  rw [of?.eq_def]
  split
  · simp [Value.kind?] at hfloat
  · rw [hx, hy]
    rfl

theorem of?_others (h : ¬(a.isNumeric = true ∧ b.isNumeric = true)) : of? a b = none := by
  rw [of?.eq_def]
  split
  · exact absurd ⟨rfl, rfl⟩ h
  · by_cases ha : a.isNumeric = true
    · rw [Value.asDouble?_eq_none fun hb => h ⟨ha, hb⟩]
      cases a.asDouble? <;> rfl
    · rw [Value.asDouble?_eq_none ha]
      rfl

end Numbers

namespace Value

variable {a b : Value} {x y : Double}

theorem order?_floats (hx : a.asDouble? = some x) (hy : b.asDouble? = some y)
    (hfloat : a.kind? = some .float ∨ b.kind? = some .float) :
    a.order? b = some (x.compare? y) := by
  rw [order?.eq_def]
  split
  · simp [kind?] at hfloat
  · rw [Numbers.of?_floats hx hy hfloat]

theorem order?_others (hnumbers : ¬(a.isNumeric = true ∧ b.isNumeric = true))
    (htexts : ¬(a.kind? = some .string ∧ b.kind? = some .string)) : a.order? b = none := by
  rw [order?.eq_def]
  split
  · exact absurd ⟨rfl, rfl⟩ htexts
  · rw [Numbers.of?_others hnumbers]

-- The values that have an order are numbers or texts, both of one sort.
def Orderable (a b : Value) : Prop :=
  a.isNumeric = true ∧ b.isNumeric = true ∨ a.kind? = some .string ∧ b.kind? = some .string

theorem order?_cases (a b : Value) :
    (Orderable a b ∧ ∃ order, a.order? b = some order) ∨ ¬Orderable a b ∧ a.order? b = none := by
  cases operands a b with
  | texts s t => exact .inl ⟨.inr ⟨rfl, rfl⟩, _, rfl⟩
  | ints m n => exact .inl ⟨.inl ⟨rfl, rfl⟩, _, rfl⟩
  | floats hx hy hfloat =>
    exact .inl ⟨.inl ⟨isNumeric_of_asDouble? hx, isNumeric_of_asDouble? hy⟩, _,
      order?_floats hx hy hfloat⟩
  | others hnumbers htexts =>
    exact .inr ⟨not_or.mpr ⟨hnumbers, htexts⟩, order?_others hnumbers htexts⟩

theorem compare?_swap (x y : Double) : y.compare? x = (x.compare? y).map Ordering.swap := by
  rw [Double.compare?, Double.compare?, Bool.or_comm]
  split
  · rfl
  · exact congrArg some Std.OrientedCmp.eq_swap

-- Turned round, two values have the opposite order.
theorem order?_swap (a b : Value) :
    b.order? a = (a.order? b).map (Option.map Ordering.swap) := by
  cases operands a b with
  | texts s t => exact congrArg (some ∘ some) Std.OrientedCmp.eq_swap
  | ints m n => exact congrArg (some ∘ some) Std.OrientedCmp.eq_swap
  | floats hx hy hfloat =>
    rw [order?_floats hx hy hfloat, order?_floats hy hx hfloat.symm, compare?_swap]
    rfl
  | others hnumbers htexts =>
    rw [order?_others hnumbers htexts, order?_others (mt And.symm hnumbers) (mt And.symm htexts)]
    rfl

theorem order?_nan {order : Option Ordering} (hnan : a.IsNaN ∨ b.IsNaN)
    (h : a.order? b = some order) : order = none := by
  cases operands a b with
  | texts s t => simp [IsNaN] at hnan
  | ints m n => simp [IsNaN] at hnan
  | floats hx hy hfloat =>
    rw [order?_floats hx hy hfloat] at h
    refine (Option.some.inj h).symm.trans (if_pos (Bool.or_eq_true_iff.mpr ?_))
    obtain ⟨z, rfl, hz⟩ | ⟨z, rfl, hz⟩ := hnan
    · exact .inl (Option.some.inj hx ▸ hz)
    · exact .inr (Option.some.inj hy ▸ hz)
  | others hnumbers htexts =>
    rw [order?_others hnumbers htexts] at h
    cases h

theorem isZero_iff :
    b.isZero = true ↔ b ∈ [.int 0, .float (Double.zero false), .float (Double.zero true)] := by
  cases b with
  | int n => simp [isZero]
  | float y =>
    have hzeros : y.isZero = true ↔ y = Double.zero false ∨ y = Double.zero true := by
      rw [Double.isZero, decide_eq_true_eq]
      refine ⟨fun hmagnitude => ?_, by rintro (rfl | rfl) <;> decide⟩
      cases hsign : y.negative with
      | false => exact .inl (Double.ext_sign_magnitude hsign hmagnitude)
      | true => exact .inr (Double.ext_sign_magnitude hsign hmagnitude)
    simpa [isZero] using hzeros
  | _ => simp [isZero]

end Value

namespace BinaryOp

open Value

-- The types of the results of arithmetic on numbers.
def Calculates (a b : Value) (kind : Scalar) : Prop :=
  kind = .int ∧ a.kind? = some .int ∧ b.kind? = some .int ∨
    kind = .float ∧ (a.isNumeric = true ∧ b.isNumeric = true) ∧
      (a.kind? = some .float ∨ b.kind? = some .float)

-- The operator is one for the types of the operands, and its result has this type.
def Yields (op : BinaryOp) (a b : Value) (kind : Scalar) : Prop :=
  match op with
  | eq | ne => kind = .bool
  | and | or => kind = .bool ∧ a.kind? = some .bool ∧ b.kind? = some .bool
  | lt | le | gt | ge => kind = .bool ∧ Orderable a b
  | add => Calculates a b kind ∨ kind = .string ∧ a.kind? = some .string ∧ b.kind? = some .string
  | sub | mul | div | mod => Calculates a b kind
  | exp => kind = .float ∧ a.isNumeric = true ∧ b.isNumeric = true

-- A number is divided by a zero.
def DividesByZero (op : BinaryOp) (a b : Value) : Prop :=
  op ∈ [div, mod] ∧ a.isNumeric = true ∧
    b ∈ [.int 0, .float (Double.zero false), .float (Double.zero true)]

section Evaluation

variable {op : BinaryOp} {a b r : Value} {kind other : Scalar}

theorem not_calculates (h : ¬(a.isNumeric = true ∧ b.isNumeric = true)) : ¬Calculates a b kind := by
  rintro (⟨_, ha, hb⟩ | ⟨_, hnumbers, _⟩)
  · exact h ⟨isNumeric_iff.mpr (.inl ha), isNumeric_iff.mpr (.inl hb)⟩
  · exact h hnumbers

theorem Calculates.unique (h : Calculates a b kind) (hother : Calculates a b other) :
    kind = other := by
  have hmixed (ha : a.kind? = some .int) (hb : b.kind? = some .int) :
      ¬(a.kind? = some .float ∨ b.kind? = some .float) := by simp [ha, hb]
  obtain ⟨rfl, hints⟩ | ⟨rfl, _, hfloat⟩ := h <;> obtain ⟨rfl, hints'⟩ | ⟨rfl, _, hfloat'⟩ := hother
  · rfl
  · exact absurd hfloat' (hmixed hints.1 hints.2)
  · exact absurd hfloat (hmixed hints'.1 hints'.2)
  · rfl

theorem Yields.unique (h : op.Yields a b kind) (hother : op.Yields a b other) : kind = other := by
  cases op with
  | eq | ne => exact Eq.trans h (Eq.symm hother)
  | and | or | lt | le | gt | ge | exp => exact h.1.trans hother.1.symm
  | sub | mul | div | mod => exact Calculates.unique h hother
  | add =>
    have htexts {k : Scalar} (hstrings : a.kind? = some .string ∧ b.kind? = some .string) :
        ¬Calculates a b k := not_calculates (by simp [isNumeric_iff, hstrings.1])
    obtain hkind | ⟨rfl, hstrings⟩ := h <;> obtain hkind' | ⟨rfl, hstrings'⟩ := hother
    · exact hkind.unique hkind'
    · exact absurd hkind (htexts hstrings')
    · exact absurd hkind' (htexts hstrings)
    · rfl

-- An operator gives a value of the type that the operands call for, or they call for none.
def Evaluates (op : BinaryOp) (a b : Value) : Prop :=
  (∃ kind r, op.Yields a b kind ∧ op.eval? a b = some r ∧ r.kind? = some kind) ∨
    (∀ kind, ¬op.Yields a b kind) ∧ op.eval? a b = none

theorem eval_cases (ints : Int64 → Int64 → Int64) (floats : Double → Double → Double)
    (a b : Value) :
    (∃ kind r, Calculates a b kind ∧
        (Numbers.of? a b).map (Numbers.eval ints floats) = some r ∧ r.kind? = some kind) ∨
      (∀ kind, ¬Calculates a b kind) ∧ (Numbers.of? a b).map (Numbers.eval ints floats) = none := by
  cases operands a b with
  | texts s t => exact .inr ⟨fun kind => not_calculates (by simp [isNumeric]), rfl⟩
  | ints m n => exact .inl ⟨.int, _, .inl ⟨rfl, rfl, rfl⟩, rfl, rfl⟩
  | floats hx hy hfloat =>
    have hnumbers := And.intro (isNumeric_of_asDouble? hx) (isNumeric_of_asDouble? hy)
    rw [Numbers.of?_floats hx hy hfloat]
    exact .inl ⟨.float, _, .inr ⟨rfl, hnumbers, hfloat⟩, rfl, rfl⟩
  | others hnumbers _ =>
    rw [Numbers.of?_others hnumbers]
    exact .inr ⟨fun kind => not_calculates hnumbers, rfl⟩

theorem evaluates_add (a b : Value) : add.Evaluates a b := by
  by_cases htexts : a.kind? = some .string ∧ b.kind? = some .string
  · obtain ⟨⟨s, rfl⟩, ⟨t, rfl⟩⟩ := htexts.imp kind?_eq_string_iff.mp kind?_eq_string_iff.mp
    exact .inl ⟨.string, _, .inr ⟨rfl, rfl, rfl⟩, rfl, rfl⟩
  · have heval : add.eval? a b = (Numbers.of? a b).map (Numbers.eval (· + ·) Double.add) := by
      rw [eval?]
      rintro s t rfl rfl
      exact htexts ⟨rfl, rfl⟩
    rw [Evaluates, heval]
    obtain ⟨kind, r, hkind, hr⟩ | ⟨hnone, hr⟩ := eval_cases (· + ·) Double.add a b
    · exact .inl ⟨kind, r, .inl hkind, hr⟩
    · refine .inr ⟨fun kind => ?_, hr⟩
      rintro (hkind | ⟨_, hstrings⟩)
      · exact hnone kind hkind
      · exact htexts hstrings

theorem evaluates_exp (a b : Value) : exp.Evaluates a b := by
  by_cases hnumbers : a.isNumeric = true ∧ b.isNumeric = true
  · obtain ⟨⟨x, hx⟩, ⟨y, hy⟩⟩ := hnumbers.imp exists_asDouble?_iff.mpr exists_asDouble?_iff.mpr
    refine .inl ⟨.float, .float (x.pow y), ⟨rfl, hnumbers⟩, ?_, rfl⟩
    rw [eval?, hx, hy]
    rfl
  · refine .inr ⟨fun kind h => hnumbers h.2, ?_⟩
    rw [eval?]
    by_cases ha : a.isNumeric = true
    · rw [asDouble?_eq_none fun hb => hnumbers ⟨ha, hb⟩]
      cases a.asDouble? <;> rfl
    · rw [asDouble?_eq_none ha]
      rfl

theorem evaluates_logic (combine : Bool → Bool → Bool) (a b : Value)
    (hyields : ∀ kind, op.Yields a b kind ↔
      kind = .bool ∧ a.kind? = some .bool ∧ b.kind? = some .bool)
    (heval : op.eval? a b = do some (.bool (combine (← a.asBool?) (← b.asBool?)))) :
    op.Evaluates a b := by
  rw [Evaluates, heval]
  by_cases hbools : a.kind? = some .bool ∧ b.kind? = some .bool
  · obtain ⟨⟨p, rfl⟩, ⟨q, rfl⟩⟩ := hbools.imp kind?_eq_bool_iff.mp kind?_eq_bool_iff.mp
    exact .inl ⟨.bool, _, (hyields .bool).mpr ⟨rfl, rfl, rfl⟩, rfl, rfl⟩
  · refine .inr ⟨fun kind h => hbools ((hyields kind).mp h).2, ?_⟩
    cases a <;> cases b <;> first | rfl | exact absurd ⟨rfl, rfl⟩ hbools

theorem evaluates_order (a b : Value)
    (hyields : ∀ kind, op.Yields a b kind ↔ kind = .bool ∧ Orderable a b)
    (heval : op.eval? a b = (a.order? b).map fun order => .bool (order.any op.holds)) :
    op.Evaluates a b := by
  rw [Evaluates, heval]
  obtain ⟨horderable, order, horder⟩ | ⟨hnot, horder⟩ := order?_cases a b
  · rw [horder]
    exact .inl ⟨.bool, _, (hyields .bool).mpr ⟨rfl, horderable⟩, rfl, rfl⟩
  · rw [horder]
    exact .inr ⟨fun kind h => hnot ((hyields kind).mp h).2, rfl⟩

theorem evaluates (op : BinaryOp) (a b : Value) : op.Evaluates a b := by
  cases op with
  | eq | ne => exact .inl ⟨.bool, _, rfl, rfl, rfl⟩
  | and => exact evaluates_logic Bool.and a b (fun _ => Iff.rfl) rfl
  | or => exact evaluates_logic Bool.or a b (fun _ => Iff.rfl) rfl
  | lt | le | gt | ge => exact evaluates_order a b (fun _ => Iff.rfl) rfl
  | add => exact evaluates_add a b
  | sub => exact eval_cases (· - ·) Double.sub a b
  | mul => exact eval_cases (· * ·) Double.mul a b
  | div => exact eval_cases (· / ·) Double.div a b
  | mod => exact eval_cases (· % ·) Double.rem a b
  | exp => exact evaluates_exp a b

end Evaluation

section Application

variable {op : BinaryOp} {s : Store} {a b r : Value} {kind : Scalar}

theorem apply_of_eval? (h : op.eval? a b = some r) : op.apply s a b =
    if op.divides && b.isZero then .error (.divisionByZero op) else .ok r := by
  rw [apply, h]

theorem apply_of_eval?_eq_none (h : op.eval? a b = none) : op.apply s a b =
    .error (.undefined (.binary op) (s.tag a) (some (s.tag b))) := by
  rw [apply, h]

theorem divides_iff : op.divides = true ↔ op ∈ [div, mod] := by cases op <;> decide

theorem DividesByZero.exists_yields (h : op.DividesByZero a b) : ∃ kind, op.Yields a b kind := by
  obtain ⟨hop, ha, hb⟩ := h
  have hnumeric : b.isNumeric = true := by
    simp only [List.mem_cons, List.not_mem_nil, or_false] at hb
    obtain rfl | rfl | rfl := hb <;> rfl
  have hkind : ∃ kind, Calculates a b kind := by
    by_cases hfloat : a.kind? = some .float ∨ b.kind? = some .float
    · exact ⟨.float, .inr ⟨rfl, ⟨ha, hnumeric⟩, hfloat⟩⟩
    · obtain ⟨hleft, hright⟩ := not_or.mp hfloat
      exact ⟨.int, .inl ⟨rfl, (isNumeric_iff.mp ha).resolve_right hleft,
        (isNumeric_iff.mp hnumeric).resolve_right hright⟩⟩
  obtain rfl | rfl := List.mem_pair.mp hop <;> exact hkind

theorem dividesByZero_iff (h : op.Yields a b kind) :
    op.DividesByZero a b ↔ (op.divides && b.isZero) = true := by
  rw [DividesByZero, Bool.and_eq_true, divides_iff, isZero_iff]
  refine and_congr_right fun hop => and_iff_right ?_
  have hkind : Calculates a b kind := by
    obtain rfl | rfl := List.mem_pair.mp hop <;> exact h
  by_contra hnumeric
  exact not_calculates (fun hnumbers => hnumeric hnumbers.1) hkind

-- The three ways in which an operator ends.
theorem apply_cases (op : BinaryOp) (s : Store) (a b : Value) :
    (∃ kind r, op.Yields a b kind ∧ ¬op.DividesByZero a b ∧ op.apply s a b = .ok r ∧
        r.kind? = some kind) ∨
      (op.DividesByZero a b ∧ op.apply s a b = .error (.divisionByZero op)) ∨
      (∀ kind, ¬op.Yields a b kind) ∧
        op.apply s a b = .error (.undefined (.binary op) (s.tag a) (some (s.tag b))) := by
  obtain ⟨kind, r, hyields, heval, hkind⟩ | ⟨hnone, heval⟩ := evaluates op a b
  · rw [apply_of_eval? heval]
    by_cases hzero : op.DividesByZero a b
    · exact .inr (.inl ⟨hzero, if_pos ((dividesByZero_iff hyields).mp hzero)⟩)
    · have hdivisor := mt (dividesByZero_iff hyields).mpr hzero
      exact .inl ⟨kind, r, hyields, hzero, if_neg hdivisor, hkind⟩
  · exact .inr (.inr ⟨hnone, apply_of_eval?_eq_none heval⟩)

-- The result is of the type that the operands call for.
theorem exists_apply_iff (op : BinaryOp) (s : Store) (a b : Value) (kind : Scalar) :
    (∃ r, op.apply s a b = .ok r ∧ r.kind? = some kind) ↔
      op.Yields a b kind ∧ ¬op.DividesByZero a b := by
  obtain ⟨k, r, hyields, hzero, happly, hkind⟩ | ⟨hzero, happly⟩ | ⟨hnone, happly⟩ :=
    apply_cases op s a b
  · rw [and_iff_left hzero]
    constructor
    · rintro ⟨other, hother, hsame⟩
      cases happly.symm.trans hother
      cases hkind.symm.trans hsame
      exact hyields
    · intro h
      exact ⟨r, happly, hyields.unique h ▸ hkind⟩
  · refine iff_of_false ?_ fun h => h.2 hzero
    rintro ⟨r, hr, _⟩
    cases happly.symm.trans hr
  · refine iff_of_false ?_ fun h => hnone kind h.1
    rintro ⟨r, hr, _⟩
    cases happly.symm.trans hr

theorem exists_kind_of_apply (h : op.apply s a b = .ok r) : ∃ kind, r.kind? = some kind := by
  obtain ⟨k, r, _, _, happly, hkind⟩ | ⟨_, happly⟩ | ⟨_, happly⟩ := apply_cases op s a b <;>
    cases happly.symm.trans h
  exact ⟨k, hkind⟩

theorem apply_eq_error_iff (op : BinaryOp) (s : Store) (a b : Value) (error : ValueError) :
    op.apply s a b = .error error ↔ error = .divisionByZero op ∧ op.DividesByZero a b ∨
      error = .undefined (.binary op) (s.tag a) (some (s.tag b)) ∧ ∀ kind, ¬op.Yields a b kind := by
  obtain ⟨k, r, hyields, hzero, happly, _⟩ | ⟨hzero, happly⟩ | ⟨hnone, happly⟩ :=
    apply_cases op s a b
  · refine iff_of_false (fun h => by cases happly.symm.trans h) ?_
    rintro (⟨_, h⟩ | ⟨_, h⟩)
    · exact hzero h
    · exact h k hyields
  · rw [happly, Except.error.injEq, eq_comm, and_iff_left hzero]
    obtain ⟨k, hyields⟩ := hzero.exists_yields
    exact (or_iff_left fun h => h.2 k hyields).symm
  · rw [happly, Except.error.injEq, eq_comm, and_iff_left hnone]
    refine (or_iff_right fun h => ?_).symm
    obtain ⟨k, hyields⟩ := h.2.exists_yields
    exact hnone k hyields

theorem apply_order (hop : op ∈ [lt, le, gt, ge]) : op.apply s a b =
    (a.order? b).elim (.error (.undefined (.binary op) (s.tag a) (some (s.tag b))))
      fun order => .ok (.bool (order.any op.holds)) := by
  obtain ⟨heval, hdivides⟩ :
      op.eval? a b = (a.order? b).map (fun order => .bool (order.any op.holds)) ∧
        op.divides = false := by
    simp only [List.mem_cons, List.not_mem_nil, or_false] at hop
    obtain rfl | rfl | rfl | rfl := hop <;> exact ⟨rfl, rfl⟩
  cases horder : a.order? b with
  | none =>
    rw [horder] at heval
    exact apply_of_eval?_eq_none heval
  | some order =>
    rw [horder] at heval
    rw [apply_of_eval? heval, hdivides]
    rfl

-- A comparison and the one that it becomes when its operands trade places.
theorem apply_order_swap {mirror : BinaryOp} (hop : op ∈ [lt, le, gt, ge])
    (hmirror : mirror ∈ [lt, le, gt, ge])
    (hholds : ∀ order, mirror.holds order.swap = op.holds order) :
    op.apply s a b = .ok r ↔ mirror.apply s b a = .ok r := by
  rw [apply_order hop, apply_order hmirror, order?_swap a b]
  cases a.order? b with
  | none => exact iff_of_false nofun nofun
  | some order =>
    have hany : (order.map Ordering.swap).any mirror.holds = order.any op.holds := by
      cases order with
      | none => rfl
      | some order => exact hholds order
    simp only [Option.map_some, Option.elim_some, hany]

theorem apply_order_nan (hop : op ∈ [lt, le, gt, ge]) (hnan : a.IsNaN ∨ b.IsNaN)
    (h : op.apply s a b = .ok r) : r = .bool false := by
  rw [apply_order hop] at h
  cases horder : a.order? b with
  | none =>
    rw [horder] at h
    cases h
  | some order =>
    rw [horder, order?_nan hnan horder] at h
    exact (Except.ok.inj h).symm

end Application

end BinaryOp

namespace UnaryOp

variable {op : UnaryOp} {s : Store} {a r : Value}

-- The operator is one for the type of the operand.
def Accepts (op : UnaryOp) (a : Value) : Prop :=
  match op with
  | neg => a.isNumeric = true
  | not => a.kind? = some .bool

-- A result is of the type of the operand.
theorem apply_cases (op : UnaryOp) (s : Store) (a : Value) :
    (∃ r, op.Accepts a ∧ op.apply s a = .ok r ∧ r.kind? = a.kind?) ∨
      ¬op.Accepts a ∧ op.apply s a = .error (.undefined (.unary op) (s.tag a) none) := by
  cases op with
  | neg =>
    cases a with
    | int | float => exact .inl ⟨_, rfl, rfl, rfl⟩
    | _ => exact .inr ⟨Bool.false_ne_true, rfl⟩
  | not =>
    cases a with
    | bool => exact .inl ⟨_, rfl, rfl, rfl⟩
    | _ => exact .inr ⟨by simp [Accepts, Value.kind?], rfl⟩

theorem exists_apply_iff (op : UnaryOp) (s : Store) (a : Value) :
    (∃ r, op.apply s a = .ok r) ↔ op.Accepts a := by
  obtain ⟨r, haccepts, happly, _⟩ | ⟨hnot, happly⟩ := apply_cases op s a
  · exact iff_of_true ⟨r, happly⟩ haccepts
  · refine iff_of_false ?_ hnot
    rintro ⟨r, hr⟩
    cases happly.symm.trans hr

theorem kind?_of_apply (h : op.apply s a = .ok r) : r.kind? = a.kind? := by
  obtain ⟨r, _, happly, hkind⟩ | ⟨_, happly⟩ := apply_cases op s a <;> cases happly.symm.trans h
  exact hkind

theorem error_of_apply {error : ValueError} (h : op.apply s a = .error error) :
    error = .undefined (.unary op) (s.tag a) none := by
  obtain ⟨r, _, happly, _⟩ | ⟨_, happly⟩ := apply_cases op s a <;> cases happly.symm.trans h
  rfl

end UnaryOp

namespace BinaryOp

-- How all operators end on two operands. Where one is not for their types the error names the
-- operator and the types from left to right.
structure Outcomes (s : Store) (a b : Value) : Prop where
  yields : ∀ (op : BinaryOp) kind, (∃ r, op.apply s a b = .ok r ∧ r.kind? = some kind) ↔
    op.Yields a b kind ∧ ¬op.DividesByZero a b
  typed : ∀ (op : BinaryOp) r, op.apply s a b = .ok r → ∃ kind, r.kind? = some kind
  fails : ∀ (op : BinaryOp) error, op.apply s a b = .error error ↔
    error = .divisionByZero op ∧ op.DividesByZero a b ∨
      error = .undefined (.binary op) (s.tag a) (some (s.tag b)) ∧ ∀ kind, ¬op.Yields a b kind
  negated : ∃ same, eq.apply s a b = .ok (.bool same) ∧ ne.apply s a b = .ok (.bool !same)
  mirrored : ∀ r, (lt.apply s a b = .ok r ↔ gt.apply s b a = .ok r) ∧
    (le.apply s a b = .ok r ↔ ge.apply s b a = .ok r)
  unordered : a.IsNaN ∨ b.IsNaN → ∀ op ∈ [lt, le, gt, ge], ∀ r,
    op.apply s a b = .ok r → r = .bool false
  unary : ∀ op : UnaryOp, ((∃ r, op.apply s a = .ok r) ↔ op.Accepts a) ∧
    (∀ r, op.apply s a = .ok r → r.kind? = a.kind?) ∧
    ∀ error, op.apply s a = .error error → error = .undefined (.unary op) (s.tag a) none

-- An operator fails just where it is not defined, and its result is of the type that its operands
-- call for.
theorem outcomes (s : Store) (a b : Value) : Outcomes s a b where
  yields op kind := exists_apply_iff op s a b kind
  typed _ _ h := exists_kind_of_apply h
  fails op error := apply_eq_error_iff op s a b error
  negated := ⟨a.equals b, rfl, rfl⟩
  mirrored r := by
    constructor
    · exact apply_order_swap (by simp) (by simp) fun order => by cases order <;> rfl
    · exact apply_order_swap (by simp) (by simp) fun order => by cases order <;> rfl
  unordered hnan op hop r h := apply_order_nan hop hnan h
  unary op := ⟨op.exists_apply_iff s a, fun _ h => UnaryOp.kind?_of_apply h,
    fun _ h => UnaryOp.error_of_apply h⟩

end BinaryOp

end Conductor
