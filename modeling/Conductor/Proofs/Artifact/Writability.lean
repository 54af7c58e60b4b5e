import Conductor.Proofs.Archive.Freezing
import Conductor.Proofs.Artifact.Refusal

namespace Conductor

-- The first of some values that has no form, and why it has none.
inductive Store.FirstFault (s : Store) : List Value → FreezeError → Prop
  | intro {before after : List Value} {v : Value} {fault : FreezeError}
      (hbefore : ∀ w ∈ before, s.Freezable w) (hfault : s.Faulty v fault) :
      FirstFault s (before ++ v :: after) fault

theorem Store.FirstFault.not_freezable {s : Store} {values : List Value} {fault : FreezeError}
    (h : s.FirstFault values fault) : ¬∀ v ∈ values, s.Freezable v := by
  obtain ⟨_, hfault⟩ := h
  exact fun hall => hfault.not_freezable (hall _ (List.mem_append_right _ List.mem_cons_self))

theorem Store.findSome?_fault_cases {s : Store} {values : List Value}
    (hheld : ∀ v ∈ values, s.Held v) :
    (values.findSome? fun v => (s.emission v).fault) = none ∧ (∀ v ∈ values, s.Freezable v) ∨
      ∃ fault, (values.findSome? fun v => (s.emission v).fault) = some fault ∧
        s.FirstFault values fault := by
  induction values with
  | nil => exact .inl ⟨rfl, List.forall_mem_nil _⟩
  | cons v rest ih =>
    obtain ⟨hv, hrest⟩ := List.forall_mem_cons.mp hheld
    rw [findSome?_cons_or]
    obtain ⟨hnone, hfreezable⟩ | ⟨fault, hsome, hfaulty⟩ := fault_emission_cases hv
    · rw [hnone, Option.none_or, List.forall_mem_cons]
      obtain ⟨hnone, hall⟩ | ⟨fault, hsome, ⟨hbefore, hfaulty⟩⟩ := ih hrest
      · exact .inl ⟨hnone, hfreezable, hall⟩
      · exact .inr ⟨_, hsome, .intro (List.forall_mem_cons.mpr ⟨hfreezable, hbefore⟩) hfaulty⟩
    · exact .inr ⟨fault, by rw [hsome, Option.some_or], .intro (List.forall_mem_nil _) hfaulty⟩

-- An archive of values, by the first of them that has no form.
theorem Store.refusal?_cases {s : Store} {values : List Value} {emission : Archive.Emission}
    (hheld : ∀ v ∈ values, s.Held v)
    (h : emission.fault = values.findSome? fun v => (s.emission v).fault) :
    emission.refusal? = none ∧ (∀ v ∈ values, s.Freezable v) ∨
      ∃ fault, emission.refusal? = some (.archive (.freeze fault)) ∧ s.FirstFault values fault := by
  rw [Archive.Emission.refusal?, h]
  obtain ⟨hnone, hall⟩ | ⟨fault, hsome, hfault⟩ := findSome?_fault_cases hheld
  · exact .inl ⟨by rw [hnone, Option.map_none], hall⟩
  · exact .inr ⟨fault, by rw [hsome, Option.map_some], hfault⟩

theorem Counted.refusal?_cases (what : Counted) (count : Nat) :
    what.refusal? count = none ∧ count ≤ what.limit ∨
      what.refusal? count = some (.tooMany what count) ∧ what.limit < count := by
  rw [refusal?]
  split
  next hlimit => exact .inr ⟨rfl, hlimit⟩
  next hlimit => exact .inl ⟨rfl, Nat.not_lt.mp hlimit⟩

namespace Demand

def Met (s : Store) (p : Program Value) : Demand → Prop
  | distinctIds => (p.functions.toList.map fun function => function.2.id).Nodup
  | metadataSize => p.metadataEnd ≤ Counted.metadataBytes.limit
  | taskCount => p.tasks.length ≤ Counted.tasks.limit
  | initialForms => ∀ v ∈ p.initials, s.Freezable v
  | literalKinds => ∀ v ∈ p.literals, ¬v.isVoid
  | literalCount => p.literals.length ≤ Counted.literals.limit
  | literalForms => ∀ v ∈ p.literals, s.Freezable v

-- The error tells how the program falls short of the demand.
inductive Reports (s : Store) (p : Program Value) : Demand → EncodeError → Prop
  | distinctIds {id : UInt16} {first second : String} {f g : Function} (hnames : first < second)
      (hf : f.id = id) (hg : g.id = id) (hfirst : (first, f) ∈ p.functions.toList)
      (hsecond : (second, g) ∈ p.functions.toList) :
      Reports s p .distinctIds (.duplicateFunctionId id first second)
  | metadataSize (hlimit : Counted.metadataBytes.limit < p.metadataEnd) :
      Reports s p .metadataSize (.tooMany .metadataBytes p.metadataEnd)
  | taskCount (hlimit : Counted.tasks.limit < p.tasks.length) :
      Reports s p .taskCount (.tooMany .tasks p.tasks.length)
  | initialForms {fault : FreezeError} (hfault : s.FirstFault p.initials fault) :
      Reports s p .initialForms (.archive (.freeze fault))
  | literalKinds {index : Nat} (hindex : p.literals.findIdx? Value.isVoid = some index) :
      Reports s p .literalKinds (.unrepresentable index .void)
  | literalCount (hlimit : Counted.literals.limit < p.literals.length) :
      Reports s p .literalCount (.tooMany .literals p.literals.length)
  | literalForms {fault : FreezeError} (hfault : s.FirstFault p.literals fault) :
      Reports s p .literalForms (.archive (.freeze fault))

variable {s : Store} {p : Program Value} {d : Demand} {error : EncodeError}

theorem Reports.not_met (h : d.Reports s p error) : ¬d.Met s p := by
  cases h with
  | @distinctIds id first second f g hnames hf hg hfirst hsecond =>
    intro hids
    have heq := List.inj_on_of_nodup_map hids hfirst hsecond (hf.trans hg.symm)
    cases heq
    exact Std.lt_irrefl hnames
  | metadataSize hlimit => exact Nat.not_le.mpr hlimit
  | taskCount hlimit => exact Nat.not_le.mpr hlimit
  | initialForms hfault => exact hfault.not_freezable
  | literalKinds hindex =>
    obtain ⟨hlt, hvoid, _⟩ := List.findIdx?_eq_some_iff_getElem.mp hindex
    exact fun hall => hall _ (List.getElem_mem hlt) hvoid
  | literalCount hlimit => exact Nat.not_le.mpr hlimit
  | literalForms hfault => exact hfault.not_freezable

theorem refusal?_cases (hheld : ∀ v ∈ p.values, s.Held v) (d : Demand) :
    d.refusal? s p = none ∧ d.Met s p ∨
      ∃ error, d.refusal? s p = some error ∧ d.Reports s p error := by
  have hvalues : (∀ v ∈ p.literals, s.Held v) ∧ ∀ v ∈ p.initials, s.Held v :=
    List.forall_mem_append.mp hheld
  cases d with
  | distinctIds =>
    rw [refusal?, SymbolTable.refusal?]
    obtain ⟨hok, _⟩ | ⟨id, first, second, herror, hlt, f, g, hf, hg, hfirst, hsecond⟩ :=
      p.functions.indexed_cases
    · rw [hok]
      exact .inl ⟨rfl, (SymbolTable.indexed_eq_ok_iff.mp hok).1⟩
    · rw [herror]
      exact .inr ⟨_, rfl, .distinctIds hlt hf hg hfirst hsecond⟩
  | metadataSize =>
    exact (Counted.refusal?_cases _ _).imp_right fun h => ⟨_, h.1, .metadataSize h.2⟩
  | taskCount =>
    exact (Counted.refusal?_cases _ _).imp_right fun h => ⟨_, h.1, .taskCount h.2⟩
  | initialForms =>
    obtain h | ⟨_, h, hfault⟩ := Store.refusal?_cases hvalues.2 (p.fault_tasks s.emission)
    · exact .inl h
    · exact .inr ⟨_, h, .initialForms hfault⟩
  | literalKinds =>
    rw [refusal?]
    cases hindex : p.literals.findIdx? Value.isVoid with
    | none =>
      refine .inl ⟨rfl, fun v hmem hvoid => ?_⟩
      rw [List.findIdx?_eq_none_iff.mp hindex v hmem] at hvoid
      cases hvoid
    | some index => exact .inr ⟨_, rfl, .literalKinds hindex⟩
  | literalCount =>
    exact (Counted.refusal?_cases _ _).imp_right fun h => ⟨_, h.1, .literalCount h.2⟩
  | literalForms =>
    obtain h | ⟨_, h, hfault⟩ :=
      Store.refusal?_cases hvalues.1 (Archive.Emission.fault_concat_map s.emission p.literals)
    · exact .inl h
    · exact .inr ⟨_, h, .literalForms hfault⟩

-- The demand is not met, and those before it are.
def First (s : Store) (p : Program Value) (d : Demand) : Prop :=
  ∃ before after, all = before ++ d :: after ∧ (∀ e ∈ before, e.Met s p) ∧ ¬d.Met s p

end Demand

namespace Program

variable {s : Store} {p : Program Value}

theorem write_cases (hheld : ∀ v ∈ p.values, s.Held v) :
    p.write s = .ok (p.sections s) ∧ (∀ d : Demand, d.Met s p) ∨
      ∃ (d : Demand) (error : EncodeError),
        p.write s = .error error ∧ d.First s p ∧ d.Reports s p error := by
  obtain ⟨hok, herror⟩ := write_eq_of_refusal s p
  have hmet {d : Demand} (hnone : d.refusal? s p = none) : d.Met s p := by
    obtain ⟨_, hmet⟩ | ⟨error, hsome, _⟩ := Demand.refusal?_cases hheld d
    · exact hmet
    · rw [hnone] at hsome
      cases hsome
  cases hfirst : Demand.all.findSome? (Demand.refusal? s p) with
  | none =>
    have hall := List.findSome?_eq_none_iff.mp hfirst
    exact .inl ⟨hok hfirst, fun d => hmet (hall d d.mem_all)⟩
  | some error =>
    obtain ⟨before, d, after, hplace, hsome, hbefore⟩ := List.findSome?_eq_some_iff.mp hfirst
    obtain ⟨hnone, _⟩ | ⟨_, hreported, hreports⟩ := Demand.refusal?_cases hheld d
    · rw [hnone] at hsome
      cases hsome
    · obtain rfl := Option.some.inj (hreported.symm.trans hsome)
      exact .inr ⟨d, _, herror _ hfirst,
        ⟨before, after, hplace, fun e he => hmet (hbefore e he), hreports.not_met⟩, hreports⟩

-- A program is written when it meets every demand, and otherwise the first that it does not meet is
-- reported.
theorem write_iff_met (hheld : ∀ v ∈ p.values, s.Held v) :
    ((∃ bytes, p.write s = .ok bytes) ↔ ∀ d : Demand, d.Met s p) ∧
      ∀ error, p.write s = .error error → ∃ d : Demand, d.First s p ∧ d.Reports s p error := by
  obtain ⟨hok, hmet⟩ | ⟨d, error, herror, hfirst, hreports⟩ := write_cases hheld
  · rw [hok]
    exact ⟨⟨fun _ => hmet, fun _ => ⟨_, rfl⟩⟩, nofun⟩
  · rw [herror]
    refine ⟨⟨nofun, fun hall => absurd (hall d) hreports.not_met⟩, ?_⟩
    rintro _ ⟨⟩
    exact ⟨d, hfirst, hreports⟩

-- A device starts with a list that holds itself, and a literal is void.
def loopStore : Store where
  cells := #[some (.list { element := .list, items := [.container ⟨0⟩] })]

def loopProgram : Program Value where
  tasks := [{
    name := "main"
    bound := [{ name := "lamp", type := .device .light, initial := .container ⟨0⟩ }] }]
  literals := [.int 7, .void]

theorem held_loopProgram : ∀ v ∈ loopProgram.values, loopStore.Held v := by
  have hvalues : loopProgram.values = [.int 7, .void, .container ⟨0⟩] := rfl
  have hstep (a : Address) (h : loopStore.Refers ⟨0⟩ a) : a = ⟨0⟩ :=
    List.mem_singleton.mp h
  rw [hvalues]
  simp only [List.forall_mem_cons]
  refine ⟨?_, ?_, ?_, List.forall_mem_nil _⟩
  · rintro a ⟨b, ⟨⟩, _⟩
  · rintro a ⟨b, ⟨⟩, _⟩
  · rintro a ⟨b, ⟨⟩, hway⟩
    have ha : a = ⟨0⟩ := by
      induction hway with
      | refl => rfl
      | tail _ h ih => exact hstep _ (ih ▸ h)
    rw [ha]
    rfl

theorem write_iff_met_loop :
    (∀ v ∈ loopProgram.values, loopStore.Held v) ∧
      loopProgram.write loopStore = .error (.archive (.freeze .cycle)) ∧
      (∃ d : Demand, d.First loopStore loopProgram ∧
        d.Reports loopStore loopProgram (.archive (.freeze .cycle))) ∧
      ¬∀ d : Demand, d.Met loopStore loopProgram := by
  have hwrite : loopProgram.write loopStore = .error (.archive (.freeze .cycle)) := by
    decide +kernel
  obtain ⟨hiff, hfirst⟩ := write_iff_met held_loopProgram
  refine ⟨held_loopProgram, hwrite, hfirst _ hwrite, fun hmet => ?_⟩
  obtain ⟨bytes, hok⟩ := hiff.mpr hmet
  rw [hwrite] at hok
  cases hok

end Program

end Conductor
