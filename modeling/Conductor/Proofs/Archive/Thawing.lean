import Conductor.Proofs.Archive.RoundTrip

namespace Conductor

namespace Store

variable {s t : Store} {v : Value} {a b : Address} {c : Container}

-- A value that is all there and has an archived form.
structure Storable (s : Store) (v : Value) : Prop where
  resident : s.Resident v
  archivable : s.Archivable v

theorem storable_of_scalar (hscalar : v.WordSized) (h : v.isContainer = false) : s.Storable v := by
  have hnone (a : Address) : ¬s.Reaches v a := by
    rintro ⟨b, rfl, _⟩
    cases h
  exact ⟨⟨hscalar, fun a hway => absurd hway (hnone a)⟩,
    fun a hway => absurd hway (hnone a), fun a _ hway => absurd hway (hnone a)⟩

section Growing

theorem Resident.find?_of_extends (h : s.Resident v) (hext : s.Extends t) (hway : s.Reaches v a) :
    t.find? a = s.find? a := by
  obtain ⟨c, hfind, _⟩ := h.container a hway
  rw [hfind, hext a c hfind]

theorem Resident.refers_of_extends (h : s.Resident v) (hext : s.Extends t) (hway : s.Reaches v a) :
    t.Refers a b ↔ s.Refers a b := by
  rw [Refers, Refers, fetch, fetch, h.find?_of_extends hext hway]

theorem Resident.reaches_of_extends (h : s.Resident v) (hext : s.Extends t) :
    t.Reaches v a ↔ s.Reaches v a := by
  have hreached (u : Store) (b : Address) : u.Reached [v] b ↔ u.Reaches v b := by simp [Reached]
  rw [← hreached, ← hreached]
  exact reached_agree (fun b hb => h.find?_of_extends hext ((hreached s b).mp hb)) a

theorem Resident.transGen_of_extends (h : s.Resident v) (hext : s.Extends t) (hway : s.Reaches v a)
    (hpath : Relation.TransGen t.Refers a b) : Relation.TransGen s.Refers a b := by
  obtain ⟨root, rfl, hroot⟩ := hway
  induction hpath with
  | single hstep => exact .single ((h.refers_of_extends hext ⟨root, rfl, hroot⟩).mp hstep)
  | tail _ hstep ih =>
    exact ih.tail ((h.refers_of_extends hext ⟨root, rfl, hroot.trans ih.to_reflTransGen⟩).mp hstep)

theorem Resident.of_extends (h : s.Resident v) (hext : s.Extends t) : t.Resident v := by
  refine ⟨h.scalar, fun a hway => ?_⟩
  obtain ⟨c, hfind, hsized⟩ := h.container a ((h.reaches_of_extends hext).mp hway)
  exact ⟨c, hext a c hfind, hsized⟩

theorem Storable.of_extends (h : s.Storable v) (hext : s.Extends t) : t.Storable v := by
  obtain ⟨hres, hacyclic, hplain⟩ := h
  refine ⟨hres.of_extends hext, fun a hway hcycle => ?_, fun a cell hway hfetch => ?_⟩
  · have hway := (hres.reaches_of_extends hext).mp hway
    exact hacyclic a hway (hres.transGen_of_extends hext hway hcycle)
  · have hway := (hres.reaches_of_extends hext).mp hway
    rw [fetch, hres.find?_of_extends hext hway] at hfetch
    exact hplain a cell hway hfetch

theorem persistent_storable {α : Type} : Persistent fun s (_ : α) v => s.Storable v :=
  fun _ _ _ _ hext h => h.of_extends hext

end Growing

theorem reaches_allocate (hway : (s.allocate c).2.Reaches (.container (s.allocate c).1) b) :
    b = (s.allocate c).1 ∨ ∃ v ∈ c.children, (s.allocate c).2.Reaches v b := by
  obtain ⟨_, ⟨⟩, hpath⟩ := hway
  obtain rfl | ⟨d, hstep, hpath⟩ := hpath.cases_head
  · exact .inl rfl
  · rw [Refers, fetch_of_find? (find?_allocate_self s c)] at hstep
    exact .inr ⟨.container d, Value.mem_filterMap_address?.mp hstep, d, rfl, hpath⟩

-- A fresh container of storable values closes no cycle, for none of them knows of it.
theorem storable_allocate (hchildren : ∀ v ∈ c.children, s.Storable v)
    (hsize : c.size < byteCapacity 8) (hkeys : ∀ key ∈ c.keys, Archive.WordSized key)
    (hplain : ∀ cell, c = .map cell → cell.object = .map) :
    (s.allocateValue c).2.Storable (s.allocateValue c).1 := by
  change (s.allocate c).2.Storable (.container (s.allocate c).1)
  have hsized : c.WordSized := ⟨hsize, hkeys, fun v hv => (hchildren v hv).resident.scalar⟩
  have hext := extends_allocate s c
  have hself := find?_allocate_self s c
  refine ⟨⟨trivial, fun b hway => ?_⟩, fun b hway hcycle => ?_, fun b cell hway hfetch => ?_⟩
  · obtain rfl | ⟨v, hv, hway⟩ := reaches_allocate hway
    · exact ⟨c, hself, hsized⟩
    · exact ((hchildren v hv).of_extends hext).resident.container b hway
  · obtain rfl | ⟨v, hv, hway⟩ := reaches_allocate hway
    · obtain ⟨d, hstep, hpath⟩ := Relation.TransGen.head'_iff.mp hcycle
      rw [Refers, fetch_of_find? hself] at hstep
      have hchild := hchildren _ (Value.mem_filterMap_address?.mp hstep)
      have hback := (hchild.resident.reaches_of_extends hext).mp ⟨d, rfl, hpath⟩
      obtain ⟨e, hfind, _⟩ := hchild.resident.container _ hback
      exact Nat.lt_irrefl _ (index_lt_of_find? hfind)
    · exact ((hchildren v hv).of_extends hext).archivable.acyclic b hway hcycle
  · obtain rfl | ⟨v, hv, hway⟩ := reaches_allocate hway
    · rw [fetch_of_find? hself] at hfetch
      exact hplain cell hfetch
    · exact ((hchildren v hv).of_extends hext).archivable.plain b cell hway hfetch

end Store

namespace Archived

open Store

theorem builds_storable_all {nodes : List Archived}
    (h : ∀ node ∈ nodes, Builds (fun s _ v => s.Storable v) node fun t => thaw t node) :
    Builds (fun s => List.Forall₂ fun _ v => s.Storable v) nodes fun t => thawAll t nodes := by
  simp only [thawAll_eq_traverse]
  exact builds_traverse persistent_storable (List.forall₂_same.mpr h)

theorem builds_storable_entries {entries : List (String × Archived)}
    (h : ∀ entry ∈ entries, Builds (fun s _ v => s.Storable v) entry.2 fun t => thaw t entry.2) :
    Builds (fun s => List.Forall₂ fun entry e => entry.1 = e.1 ∧ s.Storable e.2) entries
      fun t => thawEntries t entries := by
  simp only [thawEntries_eq_traverse]
  refine builds_traverse (fun _ _ _ _ hext h => ⟨h.1, h.2.of_extends hext⟩)
    (List.forall₂_same.mpr fun entry hmem t => ?_)
  exact ⟨(h entry hmem t).1, rfl, (h entry hmem t).2⟩

theorem builds_storable_list {element : Tag} {sample items : List Archived}
    (hcount : items.length < byteCapacity 8)
    (hsample : ∀ node ∈ sample, Builds (fun s _ v => s.Storable v) node fun t => thaw t node)
    (hitems : ∀ node ∈ items, Builds (fun s _ v => s.Storable v) node fun t => thaw t node) :
    Builds (fun s _ v => s.Storable v) (list element sample items)
      fun t => thaw t (list element sample items) := by
  intro t
  obtain ⟨hgrow, hsamples, hvalues⟩ := (builds_storable_all hsample).followed
    (persistent_forall₂ persistent_storable) (builds_storable_all hitems) t
  simp only [thaw] at hgrow hsamples hvalues ⊢
  generalize thawAll t sample = built at *
  generalize thawAll built.2 items = last at *
  have hall : ∀ v ∈ built.1 ++ last.1, last.2.Storable v :=
    List.forall_mem_append.mpr ⟨forall_right_of_forall₂ hsamples fun _ _ _ _ h => h,
      forall_right_of_forall₂ hvalues fun _ _ _ _ h => h⟩
  refine ⟨hgrow.trans (extends_allocate _ _), storable_allocate (fun v hv => hall v ?_) ?_ ?_ ?_⟩
  · refine List.mem_append.mpr ((List.mem_append.mp hv).imp_left fun hv => ?_)
    exact List.mem_of_getLast? (Option.mem_toList.mp hv)
  · rw [hvalues.length_eq] at hcount
    exact hcount
  · exact List.forall_mem_nil _
  · rintro cell ⟨⟩

theorem mem_of_mem_sample {cell : MapCell} {values : List Value} {v : Value}
    (hcell : cell.sample =
      match values with
      | key :: value :: _ => some (key, value)
      | _ => none)
    (hv : v ∈ (Container.map cell).sample) : v ∈ values := by
  match values with
  | [] | [_] =>
    simp only [Container.sample, hcell] at hv
    cases hv
  | key :: value :: rest =>
    simp only [Container.sample, hcell] at hv
    exact List.mem_append_left rest hv

theorem builds_storable_map {key element : Tag} {sample : List Archived}
    {entries : List (String × Archived)} (hcount : entries.length < byteCapacity 8)
    (hkeys : ∀ entry ∈ entries, Archive.WordSized entry.1)
    (hsample : ∀ node ∈ sample, Builds (fun s _ v => s.Storable v) node fun t => thaw t node)
    (hentries : ∀ entry ∈ entries,
      Builds (fun s _ v => s.Storable v) entry.2 fun t => thaw t entry.2) :
    Builds (fun s _ v => s.Storable v) (map key element sample entries)
      fun t => thaw t (map key element sample entries) := by
  intro t
  obtain ⟨hgrow, hsamples, hbuilt⟩ := (builds_storable_all hsample).followed
    (persistent_forall₂ persistent_storable) (builds_storable_entries hentries) t
  simp only [thaw] at hgrow hsamples hbuilt ⊢
  generalize thawAll t sample = built at *
  generalize thawEntries built.2 entries = last at *
  have hentry : ∀ e ∈ (OrderedMap.ofList last.1).toList,
      Archive.WordSized e.1 ∧ last.2.Storable e.2 := by
    intro e hmem
    have hbuiltEntry : ∀ e ∈ last.1, Archive.WordSized e.1 ∧ last.2.Storable e.2 :=
      forall_right_of_forall₂ hbuilt fun entry hentry e _ h => ⟨h.1 ▸ hkeys entry hentry, h.2⟩
    exact hbuiltEntry e (OrderedMap.mem_of_mem_ofList hmem)
  refine ⟨hgrow.trans (extends_allocate _ _), storable_allocate (fun v hv => ?_) ?_ ?_ ?_⟩
  · rcases List.mem_append.mp hv with hv | hv
    · exact forall_right_of_forall₂ hsamples (fun _ _ _ _ h => h) v (mem_of_mem_sample rfl hv)
    · obtain ⟨e, he, rfl⟩ := List.mem_map.mp hv
      exact (hentry e he).2
  · change (List.map _ _).length < _
    rw [List.length_map]
    refine Nat.lt_of_le_of_lt (OrderedMap.subperm_ofList last.1).length_le ?_
    rwa [← hbuilt.length_eq]
  · intro name hname
    obtain ⟨e, he, rfl⟩ := List.mem_map.mp hname
    exact (hentry e he).1
  · rintro cell ⟨⟩
    rfl

theorem builds_storable {tree : Archived} (h : tree.WordSized) :
    Builds (fun s _ v => s.Storable v) tree fun t => thaw t tree := by
  induction tree using ind with
  | void => exact fun t => ⟨.refl t, storable_of_scalar trivial rfl⟩
  | bool b => exact fun t => ⟨.refl t, storable_of_scalar trivial rfl⟩
  | int n => exact fun t => ⟨.refl t, storable_of_scalar trivial rfl⟩
  | float x => exact fun t => ⟨.refl t, storable_of_scalar trivial rfl⟩
  | string text =>
    cases h with
    | string htext => exact fun t => ⟨.refl t, storable_of_scalar htext rfl⟩
  | list element sample items ihsample ihitems =>
    cases h with
    | list _ hitems hsamples hnodes =>
      exact builds_storable_list hitems (fun node hmem => ihsample node hmem (hsamples node hmem))
        fun node hmem => ihitems node hmem (hnodes node hmem)
  | map key element sample entries ihsample ihentries =>
    cases h with
    | map _ hentries hsamples hkeys hnodes =>
      exact builds_storable_map hentries hkeys
        (fun node hmem => ihsample node hmem (hsamples node hmem))
        fun entry hmem => ihentries entry hmem (hnodes entry hmem)

end Archived

end Conductor
