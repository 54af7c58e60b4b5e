import Conductor.Archive.Freeze
import Conductor.Proofs.Archive.Tree
import Conductor.Proofs.Related
import Conductor.Proofs.Store.Reachability

namespace Conductor

-- A scalar whose length, if it has one, a machine word can hold.
def Value.WordSized : Value → Prop
  | .string text => Archive.WordSized text
  | _ => True

instance (v : Value) : Decidable v.WordSized :=
  match v with
  | .string text => inferInstanceAs (Decidable (Archive.WordSized text))
  | .void | .bool _ | .int _ | .float _ | .container _ => isTrue trivial

namespace Container

def keys : Container → List String
  | .list _ => []
  | .map cell => cell.entries.keys

-- A container whose texts and whose own length a machine word can measure.
structure WordSized (c : Container) : Prop where
  size : c.size < byteCapacity 8
  keys : ∀ key ∈ c.keys, Archive.WordSized key
  children : ∀ v ∈ c.children, v.WordSized

instance (c : Container) : Decidable c.WordSized :=
  decidable_of_iff
    (c.size < byteCapacity 8 ∧ (∀ key ∈ c.keys, Archive.WordSized key) ∧
      ∀ v ∈ c.children, v.WordSized)
    ⟨fun h => ⟨h.1, h.2.1, h.2.2⟩, fun h => ⟨h.size, h.keys, h.children⟩⟩

end Container

namespace Store

-- What memory promises of every value that it holds: no reference dangles, and no length passes
-- what a machine word can hold.
structure Resident (s : Store) (v : Value) : Prop where
  scalar : v.WordSized
  container : ∀ a, s.Reaches v a → ∃ c, s.find? a = some c ∧ c.WordSized

-- The value reaches no container that reaches itself, and no map but plain ones.
structure Archivable (s : Store) (v : Value) : Prop where
  acyclic : ∀ a, s.Reaches v a → ¬Relation.TransGen s.Refers a a
  plain : ∀ a cell, s.Reaches v a → s.fetch a = .map cell → cell.object = .map

-- The tree of a value.
inductive Unfolds (s : Store) : Value → Archived → Prop
  | void : Unfolds s .void .void
  | bool (b : Bool) : Unfolds s (.bool b) (.bool b)
  | int (n : Int64) : Unfolds s (.int n) (.int n)
  | float (x : Double) : Unfolds s (.float x) (.float x)
  | string (text : String) : Unfolds s (.string text) (.string text)
  | list {a : Address} {cell : ListCell} {sample items : List Archived}
      (hfind : s.find? a = some (.list cell))
      (hsample : List.Forall₂ (Unfolds s) cell.sample.toList sample)
      (hitems : List.Forall₂ (Unfolds s) cell.items items) :
      Unfolds s (.container a) (.list cell.element sample items)
  | map {a : Address} {cell : MapCell} {sample : List Archived} {entries : List (String × Archived)}
      (hfind : s.find? a = some (.map cell)) (hobject : cell.object = .map)
      (hsample : List.Forall₂ (Unfolds s) (Container.map cell).sample sample)
      (hkeys : cell.entries.keys = entries.map Prod.fst)
      (hvalues : List.Forall₂ (Unfolds s) cell.entries.values (entries.map Prod.snd)) :
      Unfolds s (.container a) (.map cell.key cell.element sample entries)

theorem Resident.exists_find? {s : Store} {a : Address} (h : s.Resident (.container a)) :
    s.find? a = some (s.fetch a) := by
  obtain ⟨c, hfind, _⟩ := h.container a (reaches_self s a)
  rw [fetch_of_find? hfind, hfind]

theorem Resident.of_child {s : Store} {a : Address} {v : Value} (h : s.Resident (.container a))
    (hchild : v ∈ (s.fetch a).children) : s.Resident v := by
  obtain ⟨c, hfind, hsized⟩ := h.container a (reaches_self s a)
  have hfetch := fetch_of_find? hfind
  exact ⟨hsized.children v (hfetch ▸ hchild), fun b hway => h.container b (hway.of_child hchild)⟩

theorem Archivable.of_child {s : Store} {a : Address} {v : Value} (h : s.Archivable (.container a))
    (hchild : v ∈ (s.fetch a).children) : s.Archivable v :=
  ⟨fun b hway => h.acyclic b (hway.of_child hchild),
    fun b cell hway => h.plain b cell (hway.of_child hchild)⟩

-- A store in which every container is as memory promises.
structure Sound (s : Store) : Prop where
  wordSized : ∀ a c, s.find? a = some c → c.WordSized
  living : ∀ a c, s.find? a = some c → ∀ b ∈ c.references, ∃ d, s.find? b = some d

theorem Sound.resident {s : Store} {v : Value} (hs : s.Sound) (hv : v.WordSized)
    (hheld : ∀ a, v = .container a → ∃ c, s.find? a = some c) : s.Resident v := by
  refine ⟨hv, ?_⟩
  rintro a ⟨b, rfl, hway⟩
  have hliving : ∃ c, s.find? a = some c := by
    induction hway with
    | refl => exact hheld b rfl
    | @tail a' c _ hstep ih =>
      obtain ⟨d, hfind⟩ := ih
      rw [Refers, fetch_of_find? hfind] at hstep
      exact hs.living _ d hfind c hstep
  obtain ⟨c, hfind⟩ := hliving
  exact ⟨c, hfind, hs.wordSized a c hfind⟩

-- The path of a walk: every container on it leads to the value at hand.
def Above (s : Store) (path : List Address) (v : Value) : Prop :=
  ∀ a ∈ path, ∀ b, v = .container b → Relation.TransGen s.Refers a b

theorem Above.of_child {s : Store} {path : List Address} {a : Address} {v : Value}
    (h : s.Above path (.container a)) (hchild : v ∈ (s.fetch a).children) :
    s.Above (a :: path) v := by
  rintro b hb c rfl
  have hstep := refers_of_mem_children hchild
  cases List.mem_cons.mp hb with
  | inl heq => exact heq ▸ .single hstep
  | inr hmem => exact (h b hmem a rfl).tail hstep

-- The walk meets no container of its path again, so it never stops.
theorem exists_freezeWithin {s : Store} {path : List Address} {v : Value} (hres : s.Resident v)
    (harch : s.Archivable v) (habove : s.Above path v) :
    ∃ tree, s.freezeWithin path v = .ok tree ∧ s.Unfolds v tree := by
  induction path, v using freezeWithin.induct s with
  | case1 path => exact ⟨_, by rw [freezeWithin], .void⟩
  | case2 path b => exact ⟨_, by rw [freezeWithin], .bool b⟩
  | case3 path n => exact ⟨_, by rw [freezeWithin], .int n⟩
  | case4 path x => exact ⟨_, by rw [freezeWithin], .float x⟩
  | case5 path text => exact ⟨_, by rw [freezeWithin], .string text⟩
  | case6 path a henter cell hfetch ih =>
    have hchild : ∀ x ∈ (s.fetch a).children,
        ∃ tree, s.freezeWithin (a :: path) x = .ok tree ∧ s.Unfolds x tree := fun x hmem =>
      ih x (hres.of_child hmem) (harch.of_child hmem) (habove.of_child hmem)
    rw [hfetch] at hchild
    obtain ⟨sample, hsampleOk, hsample⟩ := mapM_ok_of_forall cell.sample.toList
      fun x hmem => hchild x (List.mem_append_left _ hmem)
    obtain ⟨items, hitemsOk, hitems⟩ := mapM_ok_of_forall cell.items
      fun x hmem => hchild x (List.mem_append_right _ hmem)
    have hfind := hres.exists_find?
    rw [hfetch] at hfind
    refine ⟨_, ?_, .list hfind hsample hitems⟩
    rw [freezeWithin, dif_pos henter, hfetch]
    simp only [hsampleOk, hitemsOk]
    rfl
  | case7 path a henter cell hfetch d hobject =>
    have hplain := harch.plain a cell (reaches_self s a) hfetch
    rw [hobject] at hplain
    cases hplain
  | case8 path a henter cell hfetch _ _ ih =>
    have hchild : ∀ x ∈ (s.fetch a).children,
        ∃ tree, s.freezeWithin (a :: path) x = .ok tree ∧ s.Unfolds x tree := fun x hmem =>
      ih x (hres.of_child hmem) (harch.of_child hmem) (habove.of_child hmem)
    rw [hfetch] at hchild
    have hentry : ∀ entry ∈ cell.entries.toList, ∃ node,
        (do return (entry.1, ← s.freezeWithin (a :: path) entry.2)) = .ok node ∧
          entry.1 = node.1 ∧ s.Unfolds entry.2 node.2 := by
      intro entry hmem
      obtain ⟨tree, hok, htree⟩ := hchild entry.2
        (List.mem_append_right _ (List.mem_map_of_mem hmem))
      exact ⟨(entry.1, tree), by rw [hok]; rfl, rfl, htree⟩
    obtain ⟨entries, hentriesOk, hentries⟩ := mapM_ok_of_forall cell.entries.toList hentry
    obtain ⟨sample, hsampleOk, hsample⟩ := mapM_ok_of_forall (Container.map cell).sample
      fun x hmem => hchild x (List.mem_append_left _ hmem)
    obtain ⟨hkeys, hvalues⟩ := forall₂_entries_iff.mp hentries
    have hfind := hres.exists_find?
    rw [hfetch] at hfind
    have hobject := harch.plain a cell (reaches_self s a) hfetch
    refine ⟨_, ?_, .map hfind hobject hsample hkeys hvalues⟩
    rw [freezeWithin, dif_pos henter, hfetch]
    simp only [hobject, hentriesOk, hsampleOk]
    rfl
  | case9 path a henter =>
    refine absurd ⟨index_lt_of_find? hres.exists_find?, fun hmem => ?_⟩ henter
    exact harch.acyclic a (reaches_self s a) (habove a hmem a rfl)

theorem exists_freeze {s : Store} {v : Value} (hres : s.Resident v) (harch : s.Archivable v) :
    ∃ tree, s.freeze v = .ok tree ∧ s.Unfolds v tree :=
  exists_freezeWithin hres harch fun _ hmem => by cases hmem

theorem length_sample_lt (c : Container) : c.sample.length < byteCapacity 8 := by
  have hsmall : c.sample.length ≤ 2 := by
    cases c with
    | list cell => cases h : cell.sample <;> simp [Container.sample, h]
    | map cell => cases h : cell.sample <;> simp [Container.sample, h]
  exact Nat.lt_of_le_of_lt hsmall (by decide)

-- A value unfolds to one tree only.
theorem Unfolds.eq {s : Store} {v : Value} {tree other : Archived} (h : s.Unfolds v tree)
    (hother : s.Unfolds v other) : tree = other := by
  induction tree using Archived.ind generalizing v other with
  | void => cases h; cases hother; rfl
  | bool b => cases h; cases hother; rfl
  | int n => cases h; cases hother; rfl
  | float x => cases h; cases hother; rfl
  | string text => cases h; cases hother; rfl
  | list element sample items ihsample ihitems =>
    cases h with
    | list hfind hsample hitems =>
      cases hother with
      | list hfound hsamples hvalues =>
        cases hfind.symm.trans hfound
        have hsampleEq := eq_of_forall₂ (forall₂_imp_of_mem hsample
          fun _ _ node hnode h _ hother => ihsample node hnode h hother) hsamples
        have hitemsEq := eq_of_forall₂ (forall₂_imp_of_mem hitems
          fun _ _ node hnode h _ hother => ihitems node hnode h hother) hvalues
        rw [hsampleEq, hitemsEq]
      | map hfound => cases hfind.symm.trans hfound
  | map key element sample entries ihsample ihentries =>
    cases h with
    | map hfind _ hsample hkeys hvalues =>
      cases hother with
      | list hfound => cases hfind.symm.trans hfound
      | @map _ _ _ others hfound _ hsamples hothers hnodes =>
        cases hfind.symm.trans hfound
        have hsampleEq := eq_of_forall₂ (forall₂_imp_of_mem hsample
          fun _ _ node hnode h _ hother => ihsample node hnode h hother) hsamples
        have hnodesEq : entries.map Prod.snd = others.map Prod.snd := by
          refine eq_of_forall₂ (forall₂_imp_of_mem hvalues ?_) hnodes
          intro _ _ node hnode h _ hother
          obtain ⟨entry, hentry, rfl⟩ := List.mem_map.mp hnode
          exact ihentries entry hentry h hother
        have hentriesEq : entries = others :=
          (List.zip_of_prod (hkeys.symm.trans hothers) hnodesEq).trans
            (List.zip_of_prod rfl rfl).symm
        rw [hsampleEq, hentriesEq]

-- No length in the tree of a value is other than in the value.
theorem Unfolds.wordSized {s : Store} {v : Value} {tree : Archived} (h : s.Unfolds v tree)
    (hres : s.Resident v) : tree.WordSized := by
  induction tree using Archived.ind generalizing v with
  | void => exact .void
  | bool b => exact .bool b
  | int n => exact .int n
  | float x => exact .float x
  | string text =>
    cases h
    exact .string hres.scalar
  | list element sample items ihsample ihitems =>
    cases h with
    | @list a cell _ _ hfind hsample hitems =>
      obtain ⟨c, hfound, hsized⟩ := hres.container a (reaches_self s a)
      obtain rfl : c = .list cell := Option.some.inj (hfound.symm.trans hfind)
      have hchild : ∀ x ∈ (Container.list cell).children, s.Resident x := fun x hmem =>
        hres.of_child (by rwa [fetch_of_find? hfind])
      refine .list ?_ ?_ ?_ ?_
      · rw [← hsample.length_eq]
        exact length_sample_lt (.list cell)
      · rw [← hitems.length_eq]
        exact hsized.size
      · exact forall_right_of_forall₂ hsample fun x hx node hnode hunfolds =>
          ihsample node hnode hunfolds (hchild x (List.mem_append_left _ hx))
      · exact forall_right_of_forall₂ hitems fun x hx node hnode hunfolds =>
          ihitems node hnode hunfolds (hchild x (List.mem_append_right _ hx))
  | map key element sample entries ihsample ihentries =>
    cases h with
    | @map a cell _ _ hfind _ hsample hkeys hvalues =>
      obtain ⟨c, hfound, hsized⟩ := hres.container a (reaches_self s a)
      obtain rfl : c = .map cell := Option.some.inj (hfound.symm.trans hfind)
      have hchild : ∀ x ∈ (Container.map cell).children, s.Resident x := fun x hmem =>
        hres.of_child (by rwa [fetch_of_find? hfind])
      have hnodes : ∀ node ∈ entries.map Prod.snd, node.WordSized := by
        refine forall_right_of_forall₂ hvalues fun x hx node hnode hunfolds => ?_
        obtain ⟨entry, hentry, rfl⟩ := List.mem_map.mp hnode
        exact ihentries entry hentry hunfolds (hchild x (List.mem_append_right _ hx))
      refine .map ?_ ?_ ?_ ?_ ?_
      · rw [← hsample.length_eq]
        exact length_sample_lt (.map cell)
      · have hlength := hvalues.length_eq
        rw [List.length_map] at hlength
        exact hlength ▸ hsized.size
      · exact forall_right_of_forall₂ hsample fun x hx node hnode hunfolds =>
          ihsample node hnode hunfolds (hchild x (List.mem_append_left _ hx))
      · intro entry hentry
        have hmem : entry.1 ∈ cell.entries.keys := hkeys ▸ List.mem_map_of_mem hentry
        exact hsized.keys entry.1 hmem
      · exact fun entry hentry => hnodes entry.2 (List.mem_map_of_mem hentry)

end Store

end Conductor
