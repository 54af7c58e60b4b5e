import Conductor.Proofs.OrderedMap
import Conductor.Proofs.Related
import Conductor.Proofs.Store.Integrity
import Conductor.Proofs.Store.Writing
import Mathlib.Logic.Relator

namespace Conductor

-- A value and what stands for it where the addresses are paired.
inductive Value.Mirrors (R : Address → Address → Prop) : Value → Value → Prop
  | scalar {v : Value} (h : v.isContainer = false) : Mirrors R v v
  | container {a b : Address} (h : R a b) : Mirrors R (.container a) (.container b)

structure ListCell.Mirrors (R : Address → Address → Prop) (cell other : ListCell) : Prop where
  element : cell.element = other.element
  sample : Option.Rel (Value.Mirrors R) cell.sample other.sample
  items : List.Forall₂ (Value.Mirrors R) cell.items other.items
  modified : cell.modified = other.modified

structure MapCell.Mirrors (R : Address → Address → Prop) (cell other : MapCell) : Prop where
  object : cell.object = other.object
  key : cell.key = other.key
  element : cell.element = other.element
  sample : Option.Rel (fun p q => Value.Mirrors R p.1 q.1 ∧ Value.Mirrors R p.2 q.2) cell.sample
    other.sample
  entries : List.Forall₂ (fun e f => e.1 = f.1 ∧ Value.Mirrors R e.2 f.2) cell.entries.toList
    other.entries.toList
  modified : cell.modified = other.modified

inductive Container.Mirrors (R : Address → Address → Prop) : Container → Container → Prop
  | list {cell other : ListCell} (h : cell.Mirrors R other) : Mirrors R (.list cell) (.list other)
  | map {cell other : MapCell} (h : cell.Mirrors R other) : Mirrors R (.map cell) (.map other)

variable {R S : Address → Address → Prop} {a b : Address} {v w : Value} {vs ws : List Value}
  {c d : Container} {s t : Store}

namespace Value.Mirrors

theorem mono (hsub : ∀ a b, R a b → S a b) (h : v.Mirrors R w) : v.Mirrors S w := by
  cases h with
  | scalar h => exact .scalar h
  | container h => exact .container (hsub _ _ h)

theorem symm (h : v.Mirrors R w) : w.Mirrors (flip R) v := by
  cases h with
  | scalar h => exact .scalar h
  | container h => exact .container h

end Value.Mirrors

theorem Value.exists_mirrors (h : ∀ a, v = .container a → ∃ b, R a b) : ∃ w, v.Mirrors R w := by
  cases v with
  | container a =>
    obtain ⟨b, hb⟩ := h a rfl
    exact ⟨_, .container hb⟩
  | _ => exact ⟨_, .scalar rfl⟩

theorem Value.mirrors_self (h : ∀ a, v = .container a → R a a) : v.Mirrors R v := by
  cases v with
  | container a => exact .container (h a rfl)
  | _ => exact .scalar rfl

theorem exists_paired_of_mem (h : List.Forall₂ (Value.Mirrors R) vs ws) (ha : .container a ∈ vs) :
    ∃ b, R a b ∧ .container b ∈ ws := by
  obtain ⟨w, hmem, hw⟩ := exists_mem_of_forall₂ h ha
  cases hw with
  | scalar h => cases h
  | container hab => exact ⟨_, hab, hmem⟩

theorem mirrors_flip (h : List.Forall₂ (Value.Mirrors R) vs ws) :
    List.Forall₂ (Value.Mirrors (flip R)) ws vs :=
  h.flip.imp fun _ _ => Value.Mirrors.symm

theorem mirrors_mono (hsub : ∀ a b, R a b → S a b) (h : List.Forall₂ (Value.Mirrors R) vs ws) :
    List.Forall₂ (Value.Mirrors S) vs ws :=
  h.imp fun _ _ => Value.Mirrors.mono hsub

theorem exists_mirrors_all (h : ∀ a, .container a ∈ vs → ∃ b, R a b) :
    ∃ ws, List.Forall₂ (Value.Mirrors R) vs ws :=
  exists_forall₂ vs fun _ hv => Value.exists_mirrors fun a ha => h a (ha ▸ hv)

namespace Container.Mirrors

theorem mono (hsub : ∀ a b, R a b → S a b) (h : c.Mirrors R d) : c.Mirrors S d := by
  cases h with
  | list h =>
    exact .list ⟨h.element, rel_imp (fun _ _ => .mono hsub) h.sample, mirrors_mono hsub h.items,
      h.modified⟩
  | map h =>
    exact .map ⟨h.object, h.key, h.element,
      rel_imp (fun _ _ h => ⟨h.1.mono hsub, h.2.mono hsub⟩) h.sample,
      h.entries.imp fun _ _ h => ⟨h.1, h.2.mono hsub⟩, h.modified⟩

theorem symm (h : c.Mirrors R d) : d.Mirrors (flip R) c := by
  cases h with
  | list h =>
    exact .list ⟨h.element.symm, rel_imp (fun _ _ => .symm) (rel_flip h.sample),
      mirrors_flip h.items, h.modified.symm⟩
  | map h =>
    exact .map ⟨h.object.symm, h.key.symm, h.element.symm,
      rel_imp (fun _ _ h => ⟨h.1.symm, h.2.symm⟩) (rel_flip h.sample),
      h.entries.flip.imp fun _ _ h => ⟨h.1.symm, h.2.symm⟩, h.modified.symm⟩

theorem children (h : c.Mirrors R d) : List.Forall₂ (Value.Mirrors R) c.children d.children := by
  cases h with
  | @list cell other h =>
    have hsample := h.sample
    refine List.rel_append ?_ h.items
    rw [Container.sample, Container.sample]
    generalize cell.sample = x, other.sample = y at hsample
    cases hsample with
    | none => exact .nil
    | some h => exact .cons h .nil
  | @map cell other h =>
    have hsample := h.sample
    refine List.rel_append ?_ (forall₂_entries_iff.mp h.entries).2
    rw [Container.sample, Container.sample]
    generalize cell.sample = x, other.sample = y at hsample
    cases hsample with
    | none => exact .nil
    | some h => exact .cons h.1 (.cons h.2 .nil)

theorem clear (h : c.Mirrors R d) : c.clear.Mirrors R d.clear := by
  cases h with
  | list h => exact .list ⟨h.element, h.sample, .nil, h.modified⟩
  | map h => exact .map ⟨h.object, h.key, h.element, h.sample, .nil, h.modified⟩

theorem setModified (h : c.Mirrors R d) (flag : Bool) :
    (c.setModified flag).Mirrors R (d.setModified flag) := by
  cases h with
  | list h => exact .list ⟨h.element, h.sample, h.items, rfl⟩
  | map h => exact .map ⟨h.object, h.key, h.element, h.sample, h.entries, rfl⟩

theorem exists_paired (h : c.Mirrors R d) (ha : a ∈ c.references) :
    ∃ b, R a b ∧ b ∈ d.references := by
  obtain ⟨b, hab, hb⟩ := exists_paired_of_mem h.children (Value.mem_filterMap_address?.mp ha)
  exact ⟨b, hab, Value.mem_filterMap_address?.mpr hb⟩

end Container.Mirrors

theorem mem_children_of_mem_sample {cell : MapCell} {pair : Value × Value}
    (h : pair ∈ cell.sample) :
    pair.1 ∈ (Container.map cell).children ∧ pair.2 ∈ (Container.map cell).children := by
  have hsample : (Container.map cell).sample = [pair.1, pair.2] := by
    rw [Container.sample, Option.mem_def.mp h]
  simp [Container.children, hsample]

-- A container has a mirror image when what it holds on to is paired.
theorem Container.exists_mirrors (h : ∀ a ∈ c.references, ∃ b, R a b) : ∃ d, c.Mirrors R d := by
  have hvalue : ∀ v ∈ c.children, ∃ w, v.Mirrors R w := fun v hv =>
    Value.exists_mirrors fun a ha => h a (Value.mem_filterMap_address?.mpr (ha ▸ hv))
  cases c with
  | list cell =>
    obtain ⟨sample, hsample⟩ : ∃ y, Option.Rel (Value.Mirrors R) cell.sample y :=
      exists_rel fun v hv => hvalue v (List.mem_append_left _ (Option.mem_toList.mpr hv))
    obtain ⟨items, hitems⟩ := exists_forall₂ cell.items fun v hv =>
      hvalue v (List.mem_append_right _ hv)
    exact ⟨.list { cell with sample, items }, .list ⟨rfl, hsample, hitems, rfl⟩⟩
  | map cell =>
    obtain ⟨sample, hsample⟩ : ∃ y, Option.Rel (fun p (q : Value × Value) =>
        Value.Mirrors R p.1 q.1 ∧ Value.Mirrors R p.2 q.2) cell.sample y := by
      refine exists_rel fun pair hpair => ?_
      have hmem := mem_children_of_mem_sample hpair
      obtain ⟨key, hkey⟩ := hvalue _ hmem.1
      obtain ⟨value, hval⟩ := hvalue _ hmem.2
      exact ⟨(key, value), hkey, hval⟩
    obtain ⟨entries, hentries⟩ : ∃ entries, List.Forall₂ (fun e (f : String × Value) =>
        e.1 = f.1 ∧ Value.Mirrors R e.2 f.2) cell.entries.toList entries := by
      refine exists_forall₂ _ fun e he => ?_
      obtain ⟨w, hw⟩ := hvalue e.2 (List.mem_append_right _ (List.mem_map_of_mem he))
      exact ⟨(e.1, w), rfl, hw⟩
    have hnodup : (entries.map Prod.fst).Nodup :=
      (forall₂_entries_iff.mp hentries).1 ▸ cell.entries.nodup
    exact ⟨.map { cell with sample, entries := ⟨entries, hnodup⟩ },
      .map ⟨rfl, rfl, rfl, hsample, hentries, rfl⟩⟩

-- A container is its own mirror image when what it holds on to stands for itself.
theorem Container.mirrors_self (h : ∀ a ∈ c.references, R a a) : c.Mirrors R c := by
  have hvalue : ∀ v ∈ c.children, v.Mirrors R v := fun v hv =>
    Value.mirrors_self fun a ha => h a (Value.mem_filterMap_address?.mpr (ha ▸ hv))
  cases c with
  | list cell =>
    have hsample : Option.Rel (Value.Mirrors R) cell.sample cell.sample :=
      rel_self fun v hv => hvalue v (List.mem_append_left _ (Option.mem_toList.mpr hv))
    have hitems : List.Forall₂ (Value.Mirrors R) cell.items cell.items :=
      List.forall₂_same.mpr fun v hv => hvalue v (List.mem_append_right _ hv)
    exact .list ⟨rfl, hsample, hitems, rfl⟩
  | map cell =>
    refine .map ⟨rfl, rfl, rfl, rel_self fun pair hpair => ?_, ?_, rfl⟩
    · have hmem := mem_children_of_mem_sample hpair
      exact ⟨hvalue _ hmem.1, hvalue _ hmem.2⟩
    · refine List.forall₂_same.mpr fun e he => ⟨rfl, hvalue e.2 ?_⟩
      exact List.mem_append_right _ (List.mem_map_of_mem he)

section Writes

variable {after : Container} {given : List Value}

theorem Store.mapKey_of_ok {key : Value} {text : String} (h : s.mapKey key = .ok text) :
    t.mapKey key = .ok text := by
  rw [mapKey] at h ⊢
  split at h
  · exact h
  · cases h

theorem Store.position_of_ok {key : Value} {length i : Nat} (h : s.position key length = .ok i) :
    t.position key length = .ok i := by
  rw [position.eq_def] at h ⊢
  split at h
  · exact h
  · cases h

-- What can be written to a container can be written to its mirror image.
theorem Container.Writes.mirrored (h : Writes s c given after) (hc : c.Mirrors R d)
    (hgiven : ∀ v ∈ given, ∃ w, v.Mirrors R w) :
    ∃ others final, Writes t d others final ∧ List.Forall₂ (Value.Mirrors R) given others ∧
      after.Mirrors R final := by
  cases h with
  | @emplace cell after key value h =>
    obtain ⟨text, htext, rfl⟩ := MapCell.emplace_eq_ok_iff.mp h
    obtain ⟨w, hvw⟩ := hgiven value List.mem_cons_self
    cases hc with
    | map hc =>
      have hentries := OrderedMap.forall₂_insert text hc.entries hvw
      refine ⟨[w], _,
        .emplace (MapCell.emplace_eq_ok_iff.mpr ⟨text, Store.mapKey_of_ok htext, rfl⟩),
        .cons hvw .nil, ?_⟩
      exact .map { hc with entries := hentries, modified := rfl }
  | @erase cell after key removed h =>
    obtain ⟨text, htext, hget, rfl⟩ := MapCell.erase_eq_ok_iff.mp h
    cases hc with
    | map hc =>
      refine ⟨[], _,
        .erase (MapCell.erase_eq_ok_iff.mpr ⟨text, Store.mapKey_of_ok htext, rfl, rfl⟩),
        .nil, ?_⟩
      rw [← OrderedMap.isSome_eq_of_rel (OrderedMap.rel_get? text hc.entries), hget]
      split
      · exact .map { hc with entries := OrderedMap.forall₂_erase text hc.entries, modified := rfl }
      · exact .map hc
  | @assignEntry cell after key value old h =>
    obtain ⟨text, htext, hget, rfl⟩ := MapCell.assign_eq_ok_iff.mp h
    obtain ⟨w, hvw⟩ := hgiven value List.mem_cons_self
    cases hc with
    | map hc =>
      have hsome := OrderedMap.isSome_eq_of_rel (OrderedMap.rel_get? text hc.entries)
      rw [hget, Option.isSome_some] at hsome
      obtain ⟨previous, hprevious⟩ := Option.isSome_iff_exists.mp hsome.symm
      have hentries := OrderedMap.forall₂_insert text hc.entries hvw
      refine ⟨[w], _, .assignEntry (MapCell.assign_eq_ok_iff.mpr
        ⟨text, Store.mapKey_of_ok htext, hprevious, rfl⟩), .cons hvw .nil, ?_⟩
      exact .map { hc with entries := hentries }
  | @assignItem cell after key value old h =>
    obtain ⟨i, hi, _, rfl⟩ := ListCell.assign_eq_ok_iff.mp h
    obtain ⟨w, hvw⟩ := hgiven value List.mem_cons_self
    cases hc with
    | list hc =>
      rw [hc.items.length_eq] at hi
      refine ⟨[w], _, .assignItem (ListCell.assign_eq_ok_iff.mpr
        ⟨i, Store.position_of_ok hi, rfl, rfl⟩), .cons hvw .nil, ?_⟩
      exact .list { hc with items := forall₂_set hc.items hvw }
  | @set cell after key value old h =>
    obtain ⟨i, hi, _, rfl⟩ := ListCell.set_eq_ok_iff.mp h
    obtain ⟨w, hvw⟩ := hgiven value List.mem_cons_self
    cases hc with
    | list hc =>
      rw [hc.items.length_eq] at hi
      refine ⟨[w], _, .set (ListCell.set_eq_ok_iff.mpr ⟨i, Store.position_of_ok hi, rfl, rfl⟩),
        .cons hvw .nil, ?_⟩
      exact .list { hc with items := forall₂_set hc.items hvw, modified := rfl }
  | append cell value =>
    obtain ⟨w, hvw⟩ := hgiven value List.mem_cons_self
    cases hc with
    | list hc =>
      have hitems := List.rel_append hc.items (List.Forall₂.cons hvw .nil)
      exact ⟨[w], _, .append _ w, .cons hvw .nil,
        .list { hc with items := hitems, modified := rfl }⟩
  | pop cell =>
    cases hc with
    | @list _ other hc =>
      refine ⟨[], _, .pop other, .nil, ?_⟩
      have hlast := forall₂_getLast? hc.items
      rw [ListCell.pop, ListCell.pop]
      cases hcell : cell.items.getLast? <;> cases hother : other.items.getLast? <;>
        rw [hcell, hother] at hlast
      · exact .list hc
      · cases hlast
      · cases hlast
      · exact .list { hc with items := forall₂_dropLast hc.items, modified := rfl }
  | clear c => exact ⟨[], _, .clear d, .nil, hc.clear⟩
  | mark c flag => exact ⟨[], _, .mark d flag, .nil, hc.setModified flag⟩

end Writes

namespace Store

-- Paired addresses show the same, and everything that lives is paired.
structure Mirrors (R : Address → Address → Prop) (s t : Store) : Prop where
  unique : Relator.BiUnique R
  known : ∀ a b, R a b → a.index < s.cells.size ∧ b.index < t.cells.size
  cells : ∀ a b, R a b → Option.Rel (Container.Mirrors R) (s.find? a) (t.find? b)
  left : ∀ a, s.Lives a → ∃ b, R a b
  right : ∀ b, t.Lives b → ∃ a, R a b

-- One more pair.
def joined (R : Address → Address → Prop) (a b x y : Address) : Prop := R x y ∨ x = a ∧ y = b

theorem mem_joined : joined R a b a b := .inr ⟨rfl, rfl⟩

theorem sub_joined : ∀ x y, R x y → joined R a b x y := fun _ _ => .inl

-- An address that was given out stands for itself.
def identity (s : Store) (a b : Address) : Prop := a = b ∧ a.index < s.cells.size

theorem identity_of_lives (h : s.Lives a) : s.identity a a := ⟨rfl, index_lt_of_lives h⟩

-- A store mirrors one that shows the same everywhere.
theorem mirrors_of_find? (hclosed : s.Closed) (hsize : s.cells.size ≤ t.cells.size)
    (hsame : ∀ a, t.find? a = s.find? a) : s.Mirrors s.identity t where
  unique := by
    constructor
    · rintro a b c ⟨rfl, _⟩ ⟨rfl, _⟩
      rfl
    · rintro a b c ⟨rfl, _⟩ ⟨rfl, _⟩
      rfl
  known := by
    rintro a _ ⟨rfl, ha⟩
    exact ⟨ha, Nat.lt_of_lt_of_le ha hsize⟩
  cells := by
    rintro a _ ⟨rfl, _⟩
    rw [hsame]
    refine rel_self fun c hfind => Container.mirrors_self fun b hb => ?_
    exact identity_of_lives (hclosed a b (refers_of_find? hfind hb))
  left a ha := ⟨a, identity_of_lives ha⟩
  right a ha := by
    rw [Lives, hsame] at ha
    exact ⟨a, identity_of_lives ha⟩

namespace Mirrors

variable {x y : Address} {roots others held kept : List Value} {garbage loose : List Address}

theorem symm (h : s.Mirrors R t) : t.Mirrors (flip R) s where
  unique := ⟨fun _ _ _ hx hy => h.unique.2 hx hy, fun _ _ _ hx hy => h.unique.1 hx hy⟩
  known b a hab := (h.known a b hab).symm
  cells b a hab := rel_imp (fun _ _ => .symm) (rel_flip (h.cells a b hab))
  left := h.right
  right := h.left

theorem lives_iff (h : s.Mirrors R t) (hab : R a b) : s.Lives a ↔ t.Lives b := by
  rw [Lives, Lives, OrderedMap.isSome_eq_of_rel (h.cells a b hab)]

theorem exists_find? (h : s.Mirrors R t) (hab : R a b) (hfind : s.find? a = some c) :
    ∃ d, t.find? b = some d ∧ c.Mirrors R d := by
  have hcells := h.cells a b hab
  rw [hfind] at hcells
  generalize t.find? b = y at hcells
  cases hcells with
  | some hcd => exact ⟨_, rfl, hcd⟩

theorem children (h : s.Mirrors R t) (hab : R a b) :
    List.Forall₂ (Value.Mirrors R) (s.fetch a).children (t.fetch b).children := by
  have hcells := h.cells a b hab
  rw [fetch, fetch]
  generalize s.find? a = x, t.find? b = y at hcells
  cases hcells with
  | none => exact .nil
  | some hcd => exact hcd.children

theorem exists_refers (h : s.Mirrors R t) (hab : R a b) (hrefers : s.Refers a x) :
    ∃ y, R x y ∧ t.Refers b y := by
  obtain ⟨c, hfind, hx⟩ := exists_find?_of_refers hrefers
  obtain ⟨d, hfindOther, hcd⟩ := h.exists_find? hab hfind
  obtain ⟨y, hxy, hy⟩ := hcd.exists_paired hx
  exact ⟨y, hxy, refers_of_find? hfindOther hy⟩

theorem exists_refers_to (h : s.Mirrors R t) (hxy : R x y) (hrefers : s.Refers a x) :
    ∃ b, R a b ∧ t.Refers b y := by
  obtain ⟨c, hfind, _⟩ := exists_find?_of_refers hrefers
  obtain ⟨b, hab⟩ := h.left a (Store.lives_iff.mpr ⟨c, hfind⟩)
  obtain ⟨z, hxz, hbz⟩ := h.exists_refers hab hrefers
  obtain rfl := h.unique.2 hxy hxz
  exact ⟨b, hab, hbz⟩

theorem reached (h : s.Mirrors R t) (hroots : List.Forall₂ (Value.Mirrors R) roots others)
    (hab : R a b) (hreached : s.Reached roots a) : t.Reached others b := by
  obtain ⟨y, hay, hy⟩ : ∃ y, R a y ∧ t.Reached others y := by
    refine hreached.induct (P := fun x => ∃ y, R x y ∧ t.Reached others y) (fun x hx => ?_) ?_
    · obtain ⟨y, hxy, hy⟩ := exists_paired_of_mem hroots hx
      exact ⟨y, hxy, reached_of_mem hy⟩
    · rintro x z _ ⟨y, hxy, hy⟩ hrefers
      obtain ⟨u, hzu, hu⟩ := h.exists_refers hxy hrefers
      exact ⟨u, hzu, hy.of_refers hu⟩
  obtain rfl := h.unique.2 hab hay
  exact hy

theorem reached_iff (h : s.Mirrors R t) (hroots : List.Forall₂ (Value.Mirrors R) roots others)
    (hab : R a b) : s.Reached roots a ↔ t.Reached others b :=
  ⟨h.reached hroots hab, h.symm.reached (mirrors_flip hroots) hab⟩

theorem allocate (h : s.Mirrors R t) (hc : c.Mirrors R d) :
    (s.allocate c).2.Mirrors (joined R (s.allocate c).1 (t.allocate d).1) (t.allocate d).2 := by
  have hfresh : ∀ y, ¬R (s.allocate c).1 y := fun y hy =>
    Nat.lt_irrefl _ (h.known _ _ hy).1
  have hfreshOther : ∀ x, ¬R x (t.allocate d).1 := fun x hx =>
    Nat.lt_irrefl _ (h.known _ _ hx).2
  refine ⟨⟨?_, ?_⟩, ?_, ?_, ?_, ?_⟩
  · rintro x z y (hx | ⟨rfl, rfl⟩) (hz | ⟨rfl, hy⟩)
    · exact h.unique.1 hx hz
    · exact absurd (hy ▸ hx) (hfreshOther x)
    · exact absurd hz (hfreshOther z)
    · rfl
  · rintro x y z (hy | ⟨rfl, rfl⟩) (hz | ⟨hx, rfl⟩)
    · exact h.unique.2 hy hz
    · exact absurd (hx ▸ hy) (hfresh y)
    · exact absurd hz (hfresh z)
    · rfl
  · rintro x y (hxy | ⟨rfl, rfl⟩)
    · obtain ⟨hx, hy⟩ := h.known x y hxy
      simp only [Store.allocate, Array.size_push]
      omega
    · simp [Store.allocate]
  · rintro x y (hxy | ⟨rfl, rfl⟩)
    · have hx : x ≠ (s.allocate c).1 := fun heq => hfresh y (heq ▸ hxy)
      have hy : y ≠ (t.allocate d).1 := fun heq => hfreshOther x (heq ▸ hxy)
      rw [find?_allocate, find?_allocate, if_neg hx, if_neg hy]
      exact rel_imp (fun _ _ => .mono sub_joined) (h.cells x y hxy)
    · rw [find?_allocate_self, find?_allocate_self]
      exact .some (hc.mono sub_joined)
  · intro x hx
    rcases lives_allocate.mp hx with rfl | hold
    · exact ⟨_, mem_joined⟩
    · exact (h.left x hold).imp fun _ => .inl
  · intro y hy
    rcases lives_allocate.mp hy with rfl | hold
    · exact ⟨_, mem_joined⟩
    · exact (h.right y hold).imp fun _ => .inl

-- Stores that keep their addresses, of which nothing new comes to live.
theorem of_cells {u r : Store} (h : s.Mirrors R t) (hsize : u.cells.size = s.cells.size)
    (hsizeOther : r.cells.size = t.cells.size) (hlives : ∀ a, u.Lives a → s.Lives a)
    (hlivesOther : ∀ b, r.Lives b → t.Lives b)
    (hcells : ∀ a b, R a b → Option.Rel (Container.Mirrors R) (u.find? a) (r.find? b)) :
    u.Mirrors R r where
  unique := h.unique
  known a b hab := by
    rw [hsize, hsizeOther]
    exact h.known a b hab
  cells := hcells
  left a ha := h.left a (hlives a ha)
  right b hb := h.right b (hlivesOther b hb)

theorem put (h : s.Mirrors R t) (hab : R a b) (hlives : s.Lives a) (hc : c.Mirrors R d) :
    (s.put a c).Mirrors R (t.put b d) := by
  obtain ⟨x, hx⟩ := Store.lives_iff.mp hlives
  obtain ⟨y, hy, -⟩ := h.exists_find? hab hx
  obtain ⟨ha, hb⟩ := h.known a b hab
  refine h.of_cells (by simp [Store.put]) (by simp [Store.put]) (fun _ => (lives_put hx).mp)
    (fun _ => (lives_put hy).mp) fun p q hpq => ?_
  rw [find?_put ha, find?_put hb]
  by_cases hp : p = a
  · subst hp
    rw [if_pos rfl, if_pos (h.unique.2 hpq hab)]
    exact .some hc
  · have hq : q ≠ b := fun hq => hp (h.unique.1 hpq (hq ▸ hab))
    rw [if_neg hp, if_neg hq]
    exact h.cells p q hpq

theorem emptied (h : s.Mirrors R t) (hgarbage : List.Forall₂ R garbage loose) :
    (s.emptied garbage).Mirrors R (t.emptied loose) := by
  refine h.of_cells (size_emptied _) (size_emptied _) (fun _ => lives_emptied.mp)
    (fun _ => lives_emptied.mp) fun p q hpq => ?_
  have hcells := h.cells p q hpq
  have hmem : p ∈ garbage ↔ q ∈ loose := by
    constructor
    · intro hp
      obtain ⟨z, hz, hpz⟩ := exists_mem_of_forall₂ hgarbage hp
      exact h.unique.2 hpq hpz ▸ hz
    · intro hq
      obtain ⟨z, hz, hqz⟩ := exists_mem_of_forall₂ hgarbage.flip hq
      exact h.unique.1 hpq hqz ▸ hz
  rw [find?_emptied, find?_emptied]
  by_cases hp : p ∈ garbage
  · rw [if_pos hp, if_pos (hmem.mp hp)]
    generalize s.find? p = x, t.find? q = y at hcells
    cases hcells with
    | none => exact .none
    | some hcd => exact .some hcd.clear
  · rw [if_neg hp, if_neg (mt hmem.mpr hp)]
    exact hcells

-- What is left on the one side is left on the other: it is all held by something, and so is what it
-- is paired with.
theorem lives_release (h : s.Mirrors R t) (hheld : List.Forall₂ (Value.Mirrors R) held kept)
    (hab : R a b) (hlives : (s.release held).Lives a) : (t.release kept).Lives b := by
  have hold : ∀ x, (s.release held).Lives x → s.Lives x :=
    fun _ => lives_of_extends (release_extends s held)
  have hsupported : t.Supported kept fun y => ∃ x, R x y ∧ (s.release held).Lives x := by
    rintro y ⟨x, hxy, hx⟩
    obtain ⟨c, hfind⟩ := Store.lives_iff.mp hx
    rcases settled_release s held x c hfind with hmem | ⟨z, hrefers⟩
    · obtain ⟨u, hxu, hu⟩ := exists_paired_of_mem hheld hmem
      exact .inl (h.unique.2 hxy hxu ▸ hu)
    · obtain ⟨d, hz, _⟩ := exists_find?_of_refers hrefers
      obtain ⟨u, hzu, hu⟩ := h.exists_refers_to hxy ((release_extends s held).refers hrefers)
      exact .inr ⟨u, ⟨z, hzu, Store.lives_iff.mpr ⟨d, hz⟩⟩, hu⟩
  rw [Lives, find?_release_of_supported hsupported ⟨a, hab, hlives⟩]
  exact (h.lives_iff hab).mp (hold a hlives)

theorem release (h : s.Mirrors R t) (hheld : List.Forall₂ (Value.Mirrors R) held kept) :
    (s.release held).Mirrors R (t.release kept) := by
  refine h.of_cells (size_release _ _) (size_release _ _)
    (fun _ => lives_of_extends (release_extends s held))
    (fun _ => lives_of_extends (release_extends t kept)) fun p q hpq => ?_
  have hsome : ((s.release held).find? p).isSome = ((t.release kept).find? q).isSome :=
    Bool.eq_iff_iff.mpr ⟨h.lives_release hheld hpq, h.symm.lives_release (mirrors_flip hheld) hpq⟩
  refine rel_of_isSome_eq hsome fun c hc d hd => ?_
  have hcells := h.cells p q hpq
  rw [release_extends s held p c hc, release_extends t kept q d hd] at hcells
  cases hcells with
  | some hcd => exact hcd

end Mirrors

end Store

end Conductor
