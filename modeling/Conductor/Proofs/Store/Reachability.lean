import Conductor.Store.Reach
import Mathlib.Logic.Relation

namespace Conductor

theorem Value.mem_filterMap_address? {values : List Value} {a : Address} :
    a ∈ values.filterMap Value.address? ↔ .container a ∈ values := by
  rw [List.mem_filterMap]
  constructor
  · rintro ⟨v, hv, haddress⟩
    cases v <;> simp only [Value.address?, Option.some.injEq, reduceCtorEq] at haddress
    exact haddress ▸ hv
  · exact fun h => ⟨.container a, h, rfl⟩

theorem Container.mem_references_iff {c : Container} {a : Address} :
    a ∈ c.references ↔ .container a ∈ c.sample ∨ .container a ∈ c.contents := by
  rw [references, Value.mem_filterMap_address?, children, List.mem_append]

namespace Store

theorem fetch_of_find? {s : Store} {a : Address} {c : Container} (h : s.find? a = some c) :
    s.fetch a = c := by
  rw [fetch, h]
  rfl

theorem index_lt_of_find? {s : Store} {a : Address} {c : Container} (h : s.find? a = some c) :
    a.index < s.cells.size := by
  refine Nat.lt_of_not_le fun hsize => ?_
  rw [find?_of_size_le hsize] at h
  cases h

-- A container of the store that has not been released.
def Lives (s : Store) (a : Address) : Prop := (s.find? a).isSome

instance (s : Store) (a : Address) : Decidable (s.Lives a) := inferInstanceAs (Decidable (_ = true))

theorem lives_iff {s : Store} {a : Address} : s.Lives a ↔ ∃ c, s.find? a = some c :=
  Option.isSome_iff_exists

-- One container holds on to another.
def Refers (s : Store) (a b : Address) : Prop := b ∈ (s.fetch a).references

-- What reads as an empty container for want of one holds on to nothing.
theorem exists_find?_of_refers {s : Store} {a b : Address} (h : s.Refers a b) :
    ∃ c, s.find? a = some c ∧ b ∈ c.references := by
  rw [Refers, fetch] at h
  cases hfind : s.find? a with
  | none =>
    rw [hfind] at h
    cases h
  | some c =>
    rw [hfind] at h
    exact ⟨c, rfl, h⟩

theorem refers_of_find? {s : Store} {a b : Address} {c : Container} (hfind : s.find? a = some c)
    (h : b ∈ c.references) : s.Refers a b := by
  rw [Refers, fetch_of_find? hfind]
  exact h

theorem index_lt_of_refers {s : Store} {a b : Address} (h : s.Refers a b) :
    a.index < s.cells.size := by
  obtain ⟨c, hfind, _⟩ := exists_find?_of_refers h
  exact index_lt_of_find? hfind

-- A value reaches its own container and whatever that one leads to.
def Reaches (s : Store) (v : Value) (a : Address) : Prop :=
  ∃ b, v = .container b ∧ Relation.ReflTransGen s.Refers b a

theorem refers_of_mem_children {s : Store} {a b : Address}
    (h : .container b ∈ (s.fetch a).children) : s.Refers a b :=
  Value.mem_filterMap_address?.mpr h

theorem reaches_self (s : Store) (a : Address) : s.Reaches (.container a) a := ⟨a, rfl, .refl⟩

theorem Reaches.of_child {s : Store} {a b : Address} {v : Value} (h : s.Reaches v b)
    (hchild : v ∈ (s.fetch a).children) : s.Reaches (.container a) b := by
  obtain ⟨c, rfl, hway⟩ := h
  exact ⟨a, rfl, .head (refers_of_mem_children hchild) hway⟩

section Roots

-- Some root reaches the container.
def Reached (s : Store) (roots : List Value) (a : Address) : Prop := ∃ v ∈ roots, s.Reaches v a

variable {s : Store} {roots : List Value}

theorem reached_of_mem {a : Address} (h : .container a ∈ roots) : s.Reached roots a :=
  ⟨.container a, h, reaches_self s a⟩

theorem Reached.of_refers {a b : Address} (h : s.Reached roots a) (hrefers : s.Refers a b) :
    s.Reached roots b := by
  obtain ⟨v, hv, c, rfl, hway⟩ := h
  exact ⟨.container c, hv, c, rfl, hway.tail hrefers⟩

theorem Reached.root_or_refers {a : Address} (h : s.Reached roots a) :
    .container a ∈ roots ∨ ∃ b, s.Reached roots b ∧ s.Refers b a := by
  obtain ⟨_, hv, b, rfl, hway⟩ := h
  cases hway.cases_tail with
  | inl heq => exact .inl (heq ▸ hv)
  | inr hstep =>
    obtain ⟨c, hway, hrefers⟩ := hstep
    exact .inr ⟨c, ⟨.container b, hv, b, rfl, hway⟩, hrefers⟩

-- What holds of the roots and passes along references holds of all that they reach.
theorem Reached.induct {P : Address → Prop} {a : Address} (h : s.Reached roots a)
    (hroot : ∀ b, .container b ∈ roots → P b)
    (hrefers : ∀ b c, s.Reached roots b → P b → s.Refers b c → P c) : P a := by
  obtain ⟨_, hv, b, rfl, hway⟩ := h
  induction hway with
  | refl => exact hroot b hv
  | tail hway hstep ih => exact hrefers _ _ ⟨_, hv, b, rfl, hway⟩ ih hstep

theorem Reached.of_subset {others : List Value} {a : Address} (h : s.Reached others a)
    (hsub : ∀ b, .container b ∈ others → .container b ∈ roots) : s.Reached roots a :=
  h.induct (fun b hb => reached_of_mem (hsub b hb)) fun _ _ _ hb hrefers => hb.of_refers hrefers

theorem reached_congr {others : List Value} (h : ∀ v, v ∈ others ↔ v ∈ roots) (a : Address) :
    s.Reached others a ↔ s.Reached roots a := by
  simp only [Reached, h]

-- What is reached depends on the reached containers alone.
theorem reached_agree {t : Store} (h : ∀ b, s.Reached roots b → t.find? b = s.find? b)
    (a : Address) : t.Reached roots a ↔ s.Reached roots a := by
  have hrefers : ∀ b, s.Reached roots b → ∀ c, t.Refers b c ↔ s.Refers b c := by
    intro b hb c
    rw [Refers, Refers, fetch, fetch, h b hb]
  constructor
  · intro ht
    exact ht.induct (fun b hb => reached_of_mem hb)
      fun b c _ hb hstep => hb.of_refers ((hrefers b hb c).mp hstep)
  · intro hs
    exact hs.induct (fun b hb => reached_of_mem hb)
      fun b c hreached hb hstep => hb.of_refers ((hrefers b hreached c).mpr hstep)

end Roots

section Leading

variable {s : Store} {follow : Container → List Value} {v w : Value} {a b : Address}

def Leads (s : Store) (follow : Container → List Value) (a b : Address) : Prop :=
  .container b ∈ follow (s.fetch a)

-- A value meets its own container and whatever that one leads to.
def Meets (s : Store) (follow : Container → List Value) (v : Value) (a : Address) : Prop :=
  ∃ b, v = .container b ∧ Relation.ReflTransGen (s.Leads follow) b a

-- The value meets no container that leads to itself.
def Acyclic (s : Store) (follow : Container → List Value) (v : Value) : Prop :=
  ∀ a, s.Meets follow v a → ¬Relation.TransGen (s.Leads follow) a a

theorem meets_self (s : Store) (follow : Container → List Value) (a : Address) :
    s.Meets follow (.container a) a := ⟨a, rfl, .refl⟩

theorem not_meets_of_scalar (hv : v.isContainer = false) : ¬s.Meets follow v a := by
  rintro ⟨b, rfl, _⟩
  cases hv

theorem meets_container_iff : s.Meets follow (.container a) b ↔
    b = a ∨ ∃ v ∈ follow (s.fetch a), s.Meets follow v b := by
  constructor
  · rintro ⟨_, ⟨⟩, hway⟩
    obtain rfl | ⟨c, hstep, hrest⟩ := hway.cases_head
    · exact .inl rfl
    · exact .inr ⟨.container c, hstep, c, rfl, hrest⟩
  · rintro (rfl | ⟨_, hv, c, rfl, hway⟩)
    · exact meets_self s follow b
    · exact ⟨a, rfl, .head hv hway⟩

theorem Acyclic.of_inside (h : s.Acyclic follow (.container a)) (hv : v ∈ follow (s.fetch a)) :
    s.Acyclic follow v :=
  fun b hmeets => h b (meets_container_iff.mpr (.inr ⟨v, hv, hmeets⟩))

-- A container is met again by none of the values inside.
theorem Acyclic.not_meets (h : s.Acyclic follow (.container a)) (hv : v ∈ follow (s.fetch a)) :
    ¬s.Meets follow v a := by
  rintro ⟨b, rfl, hway⟩
  exact h a (meets_self s follow a) (.head' hv hway)

theorem acyclic_of_inside (h : ∀ v ∈ follow (s.fetch a), s.Acyclic follow v) :
    s.Acyclic follow (.container a) := by
  intro b hmeets hcycle
  obtain rfl | ⟨v, hv, hmeets⟩ := meets_container_iff.mp hmeets
  · -- The way back leads over a value inside, which then meets a container that leads to itself.
    obtain ⟨c, hstep, hback⟩ := Relation.TransGen.head'_iff.mp hcycle
    exact h _ hstep b ⟨c, rfl, hback⟩ hcycle
  · exact h v hv b hmeets hcycle

theorem acyclic_of_scalar (hv : v.isContainer = false) : s.Acyclic follow v :=
  fun _ hmeets => absurd hmeets (not_meets_of_scalar hv)

theorem leads_children (s : Store) : s.Leads Container.children = s.Refers := by
  funext a b
  exact propext Value.mem_filterMap_address?.symm

theorem reaches_iff_meets : s.Reaches v a ↔ s.Meets Container.children v a := by
  rw [Meets, leads_children, Reaches]

theorem acyclic_children_iff : s.Acyclic Container.children v ↔
    ∀ a, s.Reaches v a → ¬Relation.TransGen s.Refers a a := by
  simp only [Acyclic, ← reaches_iff_meets, leads_children]

-- Where no container reaches itself at all, none leads to itself.
theorem acyclic_of_not_refers (hfollow : ∀ c, ∀ v ∈ follow c, v ∈ c.children)
    (h : ∀ a, ¬Relation.TransGen s.Refers a a) : s.Acyclic follow v :=
  fun a _ hcycle =>
    h a (hcycle.lift id fun _ _ hstep => refers_of_mem_children (hfollow _ _ hstep))

end Leading

-- Containers that only hold on to older ones form no cycle.
theorem not_transGen_self_of_older {s : Store} (h : ∀ a b, s.Refers a b → b.index < a.index)
    (a : Address) : ¬Relation.TransGen s.Refers a a := by
  have hlt : ∀ b, Relation.TransGen s.Refers a b → b.index < a.index := by
    intro b hway
    induction hway with
    | single hstep => exact h _ _ hstep
    | tail _ hstep ih => exact Nat.lt_trans (h _ _ hstep) ih
  exact fun hway => Nat.lt_irrefl _ (hlt a hway)

end Store

end Conductor
