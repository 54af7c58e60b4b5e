import Conductor.Store.Compatible
import Mathlib.Logic.Relation

namespace Conductor.Store

-- What two values show without a look at their contents.
def Agree (s : Store) : Value → Value → Prop
  | .container a, .container b =>
    (s.fetch a).object = (s.fetch b).object ∧ (s.fetch a).key.compatible (s.fetch b).key ∧
      (s.fetch a).element.compatible (s.fetch b).element
  | .container _, _ => False
  | _, .container _ => False
  | v, w => s.tag v = s.tag w ∨ (v.isNumeric ∧ w.isNumeric)

-- A pair of containers leads to the pairs of what represents their contents.
inductive LeadsTo (s : Store) : Value × Value → Value × Value → Prop
  | inside {a b : Address} {pair : Value × Value}
      (h : pair ∈ (s.fetch a).representative.zip (s.fetch b).representative) :
      LeadsTo s (.container a, .container b) pair

-- A comparison inside a path, and those it has to wait for. Containers on the path in this pairing
-- and containers that are one and the same are not looked into.
inductive Awaits (s : Store) : List (Address × Address) × Value × Value →
    List (Address × Address) × Value × Value → Prop
  | inside {path : List (Address × Address)} {a b : Address} {pair : Value × Value}
      (hne : a ≠ b) (hnew : (a, b) ∉ path)
      (h : pair ∈ (s.fetch a).representative.zip (s.fetch b).representative) :
      Awaits s (path, .container a, .container b) ((a, b) :: path, pair)

-- Leading on from a pair that is not on the path.
def LeadsOff (s : Store) (path : List (Address × Address)) (p q : Value × Value) : Prop :=
  s.LeadsTo p q ∧ ∀ a b, p = (.container a, .container b) → (a, b) ∉ path

theorem index_lt_of_representative {s : Store} {a : Address}
    (h : (s.fetch a).representative ≠ []) : a.index < s.cells.size := by
  refine Nat.lt_of_not_le fun hsize => h ?_
  rw [fetch_of_size_le hsize]
  rfl

-- The store holds every pair that is looked into. So a walk needs no check that it does.
theorem enterablePair_of_mem_zip {s : Store} {path : List (Address × Address)} {a b : Address}
    {pair : Value × Value}
    (h : pair ∈ (s.fetch a).representative.zip (s.fetch b).representative)
    (hnew : (a, b) ∉ path) : s.EnterablePair path a b := by
  have hleft := List.ne_nil_of_mem (List.of_mem_zip h).1
  have hright := List.ne_nil_of_mem (List.of_mem_zip h).2
  exact ⟨index_lt_of_representative hleft, index_lt_of_representative hright, hnew⟩

theorem wellFounded_awaits (s : Store) : WellFounded fun next call => s.Awaits call next := by
  refine Subrelation.wf ?_ (measure fun call => s.pairRoom call.1).wf
  rintro _ _ ⟨_, hnew, h⟩
  exact pairRoom_cons_lt (enterablePair_of_mem_zip h hnew)

theorem compatibleWithin_container (s : Store) (path : List (Address × Address)) (a b : Address) :
    s.compatibleWithin path (.container a) (.container b) = true ↔
      s.Agree (.container a) (.container b) ∧
        (a = b ∨ (a, b) ∈ path ∨
          ∀ pair ∈ (s.fetch a).representative.zip (s.fetch b).representative,
            s.compatibleWithin ((a, b) :: path) pair.1 pair.2 = true) := by
  rw [compatibleWithin]
  simp only [declaredCompatible, Agree, Bool.and_eq_true, Bool.or_eq_true, beq_iff_eq, and_assoc]
  refine and_congr_right fun _ => and_congr_right fun _ => and_congr_right fun _ =>
    or_congr_right ?_
  by_cases henter : s.EnterablePair path a b
  · simp [henter, henter.2.2]
  · simp only [henter, dite_false, true_iff]
    by_cases hpath : (a, b) ∈ path
    · exact .inl hpath
    · exact .inr fun pair hpair => absurd (enterablePair_of_mem_zip hpair hpath) henter

theorem agree_self (s : Store) (v : Value) : s.Agree v v := by
  cases v with
  | container a => exact ⟨rfl, Tag.compatible_self _, Tag.compatible_self _⟩
  | _ => exact .inl rfl

-- From a pair of equal values only such pairs can be reached.
theorem eq_of_leadsTo {s : Store} {p q : Value × Value} (h : s.LeadsTo p q) (heq : p.1 = p.2) :
    q.1 = q.2 := by
  obtain ⟨hpair⟩ := h
  cases heq
  rw [List.zip_eq_zipWith, List.zipWith_self] at hpair
  obtain ⟨v, _, rfl⟩ := List.mem_map.mp hpair
  rfl

-- The last visit of the start cuts a way into a step and a way that avoids the start.
theorem start_or_step_avoiding {α : Type} {r : α → α → Prop} {x y : α}
    (h : Relation.ReflTransGen r x y) :
    y = x ∨ ∃ z, r x z ∧ Relation.ReflTransGen (fun u v => r u v ∧ u ≠ x) z y := by
  induction h with
  | refl => exact .inl rfl
  | @tail y z _ hstep ih =>
    by_cases hy : y = x
    · subst hy
      exact .inr ⟨z, hstep, .refl⟩
    · obtain rfl | ⟨w, hfirst, hway⟩ := ih
      · exact absurd rfl hy
      · exact .inr ⟨w, hfirst, hway.tail ⟨hstep, hy⟩⟩

theorem leadsOff_cons_iff {s : Store} {path : List (Address × Address)} {a b : Address}
    {p q : Value × Value} :
    s.LeadsOff ((a, b) :: path) p q ↔
      s.LeadsOff path p q ∧ p ≠ (.container a, .container b) := by
  constructor
  · rintro ⟨hstep, hoff⟩
    refine ⟨⟨hstep, fun c d hp hmem => hoff c d hp (List.mem_cons_of_mem _ hmem)⟩, ?_⟩
    intro hp
    exact hoff a b hp List.mem_cons_self
  · rintro ⟨⟨hstep, hoff⟩, hne⟩
    refine ⟨hstep, fun c d hp hmem => ?_⟩
    cases List.mem_cons.mp hmem with
    | inl heq =>
      cases heq
      exact hne hp
    | inr hmem => exact hoff c d hp hmem

-- The pairs reached from a pair off the path are the pair and those its inner pairs reach without
-- coming back to it.
theorem forall_reached_iff {s : Store} {path : List (Address × Address)} {a b : Address}
    (hnew : (a, b) ∉ path) (holds : Value × Value → Prop) :
    (∀ q, Relation.ReflTransGen (s.LeadsOff path) (.container a, .container b) q → holds q) ↔
      holds (.container a, .container b) ∧
        ∀ pair ∈ (s.fetch a).representative.zip (s.fetch b).representative,
          ∀ q, Relation.ReflTransGen (s.LeadsOff ((a, b) :: path)) pair q → holds q := by
  constructor
  · intro h
    refine ⟨h _ .refl, fun pair hpair q hway => h q ?_⟩
    have hstep : s.LeadsOff path (.container a, .container b) pair := by
      refine ⟨.inside hpair, ?_⟩
      rintro _ _ ⟨⟩
      exact hnew
    refine .head hstep (Relation.ReflTransGen.mono ?_ _ _ hway)
    exact fun _ _ hstep => (leadsOff_cons_iff.mp hstep).1
  · rintro ⟨hhere, hinside⟩ q hway
    obtain rfl | ⟨pair, ⟨⟨hpair⟩, _⟩, hrest⟩ := start_or_step_avoiding hway
    · exact hhere
    · refine hinside pair hpair q (Relation.ReflTransGen.mono ?_ _ _ hrest)
      exact fun _ _ hstep => leadsOff_cons_iff.mpr hstep

theorem forall_reached_iff_of_stuck {s : Store} {path : List (Address × Address)}
    {p : Value × Value} (h : ∀ q, ¬s.LeadsOff path p q) (holds : Value × Value → Prop) :
    (∀ q, Relation.ReflTransGen (s.LeadsOff path) p q → holds q) ↔ holds p := by
  refine ⟨fun hall => hall p .refl, fun hp q hway => ?_⟩
  cases hway.cases_head with
  | inl heq => exact heq ▸ hp
  | inr hstep =>
    obtain ⟨q, hstep, _⟩ := hstep
    exact absurd hstep (h q)

-- Two equal values only lead to equal values, and those agree.
theorem agree_of_reached_self {s : Store} {path : List (Address × Address)} {v : Value}
    {q : Value × Value} (h : Relation.ReflTransGen (s.LeadsOff path) (v, v) q) :
    s.Agree q.1 q.2 := by
  have heq : q.1 = q.2 := by
    induction h with
    | refl => rfl
    | tail _ hstep ih => exact eq_of_leadsTo hstep.1 ih
  rw [heq]
  exact agree_self s q.2

theorem compatible_tag_iff {s : Store} {v w : Value} (hv : v.isContainer = false)
    (hw : w.isContainer = false) : (s.tag v).compatible (s.tag w) = true ↔ s.Agree v w := by
  cases v <;> cases w <;> simp_all [Agree, tag, Tag.compatible, Tag.isNumeric, Value.isNumeric,
    Value.isContainer]

theorem isContainer_eq_false {v : Value} (h : ∀ a, v = .container a → False) :
    v.isContainer = false := by
  cases v with
  | container a => exact False.elim (h a rfl)
  | _ => rfl

-- Inside a path, what is decided is whether a pair that can be reached without crossing the path
-- is at odds.
theorem compatibleWithin_iff (s : Store) (path : List (Address × Address)) (v w : Value) :
    s.compatibleWithin path v w = true ↔
      ∀ q, Relation.ReflTransGen (s.LeadsOff path) (v, w) q → s.Agree q.1 q.2 := by
  induction path, v, w using compatibleWithin.induct s with
  | case1 path a b ih =>
    rw [compatibleWithin_container]
    by_cases heq : a = b
    · subst heq
      simp only [true_or, and_true]
      exact ⟨fun _ q hway => agree_of_reached_self hway, fun h => h _ .refl⟩
    by_cases hpath : (a, b) ∈ path
    · rw [forall_reached_iff_of_stuck fun q hstep => hstep.2 a b rfl hpath]
      simp [hpath]
    rw [forall_reached_iff hpath]
    simp only [heq, hpath, false_or]
    refine and_congr_right fun _ => forall_congr' fun pair => forall_congr' fun hpair => ?_
    exact ih (enterablePair_of_mem_zip hpair hpath) pair
  | case2 path a w h =>
    rw [forall_reached_iff_of_stuck (by rintro q ⟨⟨hstep⟩, _⟩; exact h _ rfl)]
    cases w <;> simp_all [compatibleWithin, Agree]
  | case3 path v b h =>
    rw [forall_reached_iff_of_stuck (by rintro q ⟨⟨hstep⟩, _⟩; exact h _ rfl)]
    cases v <;> simp_all [compatibleWithin, Agree]
  | case4 path v w _ hv hw =>
    rw [forall_reached_iff_of_stuck (by rintro q ⟨⟨hstep⟩, _⟩; exact hv _ rfl)]
    have hscalars := compatible_tag_iff (s := s) (isContainer_eq_false hv) (isContainer_eq_false hw)
    cases v <;> cases w <;> simp_all [compatibleWithin]

theorem compatible_iff_reached {s : Store} {v w : Value} : s.compatible v w = true ↔
    ∀ q, Relation.ReflTransGen s.LeadsTo (v, w) q → s.Agree q.1 q.2 := by
  have hoff : s.LeadsOff [] = s.LeadsTo := by
    funext p q
    simp [LeadsOff]
  rw [compatible, compatibleWithin_iff, hoff]

-- Containers are compatible when they agree and what represents their contents is compatible.
theorem compatible_container_iff {s : Store} {a b : Address} :
    s.compatible (.container a) (.container b) = true ↔
    s.Agree (.container a) (.container b) ∧
      ∀ pair ∈ (s.fetch a).representative.zip (s.fetch b).representative,
        s.compatible pair.1 pair.2 = true := by
  simp only [compatible_iff_reached]
  constructor
  · exact fun h => ⟨h _ .refl, fun pair hpair q hq => h q (.head (.inside hpair) hq)⟩
  · rintro ⟨hhere, hinside⟩ q hq
    obtain rfl | ⟨pair, hstep, hrest⟩ := hq.cases_head
    · exact hhere
    · cases hstep with
      | inside hpair => exact hinside _ hpair q hrest

-- The comparison ends, and it decides whether all pairs it can come to agree. Neither the shortcut
-- for one and the same container nor the stop at a pair under comparison changes the answer.
theorem compatible_iff_forall_agree (s : Store) (v w : Value) :
    (WellFounded fun next call => s.Awaits call next) ∧
      (s.compatible v w = true ↔
        ∀ q, Relation.ReflTransGen s.LeadsTo (v, w) q → s.Agree q.1 q.2) := by
  refine ⟨wellFounded_awaits s, ?_⟩
  have hoff : s.LeadsOff [] = s.LeadsTo := by
    funext p q
    simp [LeadsOff]
  rw [compatible, compatibleWithin_iff, hoff]

end Conductor.Store
