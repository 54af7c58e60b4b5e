import Conductor.Proofs.Archive.Freezing
import Conductor.Proofs.Archive.Nodes
import Conductor.Proofs.Archive.RoundTrip
import Conductor.Proofs.Store.Symmetry

namespace Conductor

namespace Container

-- The object type of lists and of plain maps.
def kind : Container → Tag
  | list _ => .list
  | map _ => .map

-- The container with its kind for its object type.
def plain : Container → Container
  | list cell => list cell
  | map cell => map { cell with object := .map }

@[simp]
theorem object_plain (c : Container) : c.plain.object = c.kind := by cases c <;> rfl

@[simp]
theorem key_plain (c : Container) : c.plain.key = c.key := by cases c <;> rfl

@[simp]
theorem element_plain (c : Container) : c.plain.element = c.element := by cases c <;> rfl

@[simp]
theorem children_plain (c : Container) : c.plain.children = c.children := by cases c <;> rfl

@[simp]
theorem representative_plain (c : Container) : c.plain.representative = c.representative := by
  cases c <;> rfl

theorem object_outline (c : Container) : c.outline.object = c.object := by cases c <;> rfl

theorem key_outline (c : Container) : c.outline.key = c.key := by cases c <;> rfl

theorem element_outline (c : Container) : c.outline.element = c.element := by cases c <;> rfl

theorem length_children_outline (c : Container) :
    c.outline.children.length = c.children.length := by
  cases c with
  | list cell =>
    cases hsample : cell.sample <;> simp [outline, children, sample, contents, hsample]
  | map cell =>
    cases hsample : cell.sample <;>
      simp [outline, children, sample, contents, hsample, OrderedMap.map, OrderedMap.values]

-- Two values are held in the same place of two containers, or they are one key of both.
def Opposite (c d : Container) (v w : Value) : Prop :=
  (v, w) ∈ c.children.zip d.children ∨ ∃ text, v = .string text ∧ w = .string text

theorem opposite_representative_list {c d : ListCell} (hsample : c.sample.isSome = d.sample.isSome)
    (hitems : c.items.length = d.items.length) :
    List.Forall₂ (Opposite (.list c) (.list d)) (representative (.list c))
      (representative (.list d)) := by
  cases hc : c.sample with
  | some v =>
    cases hd : d.sample with
    | none => simp [hc, hd] at hsample
    | some w => simp [representative, sample, children, Opposite, hc, hd]
  | none =>
    cases hd : d.sample with
    | some w => simp [hc, hd] at hsample
    | none =>
      cases hci : c.items <;> cases hdi : d.items <;>
        simp_all [representative, sample, children, contents, Opposite]

theorem opposite_representative_map {c d : MapCell} (hsample : c.sample.isSome = d.sample.isSome)
    (hkeys : c.entries.keys = d.entries.keys) :
    List.Forall₂ (Opposite (.map c) (.map d)) (representative (.map c))
      (representative (.map d)) := by
  cases hc : c.sample with
  | some v =>
    cases hd : d.sample with
    | none => simp [hc, hd] at hsample
    | some w => simp [representative, sample, children, Opposite, hc, hd]
  | none =>
    cases hd : d.sample with
    | some w => simp [hc, hd] at hsample
    | none =>
      cases hce : c.entries.toList <;> cases hde : d.entries.toList <;>
        simp_all [representative, sample, children, contents, Opposite, OrderedMap.keys,
          OrderedMap.values]

-- What represents the contents of two containers of one outline is opposite to each other.
theorem opposite_representative {c d : Container} (h : c.outline = d.outline) :
    List.Forall₂ (Opposite c d) c.representative d.representative := by
  cases c with
  | list c =>
    cases d with
    | map d => cases h
    | list d =>
      simp only [outline, list.injEq, ListCell.mk.injEq, and_true] at h
      obtain ⟨_, hsample, hitems⟩ := h
      exact opposite_representative_list (by simpa using congrArg Option.isSome hsample)
        (by simpa using congrArg List.length hitems)
  | map c =>
    cases d with
    | list d => cases h
    | map d =>
      simp only [outline, map.injEq, MapCell.mk.injEq, and_true] at h
      obtain ⟨_, _, _, hsample, hentries⟩ := h
      have hkeys := congrArg OrderedMap.keys hentries
      simp only [OrderedMap.keys, OrderedMap.map, List.map_map, Function.comp_def] at hkeys
      exact opposite_representative_map (by simpa using congrArg Option.isSome hsample) hkeys

end Container

namespace Store

def plain (s : Store) : Store := ⟨s.cells.map (Option.map Container.plain)⟩

theorem find?_plain (s : Store) (a : Address) :
    s.plain.find? a = (s.find? a).map Container.plain := by
  rw [find?, find?, plain, Array.getElem?_map]
  cases s.cells[a.index]? with
  | none => rfl
  | some cell => rfl

variable {s t : Store} {v w : Value} {path : List Address} {tree : Archived}

-- Freezing looks at no object type but those of devices, so a value that it takes unfolds as if all
-- maps were plain.
theorem unfolds_plain_of_freezeWithin (hheld : s.Held v) (h : s.freezeWithin path v = .ok tree) :
    s.plain.Unfolds v tree := by
  induction path, v using freezeWithin.induct s generalizing tree with
  | case1 path =>
    rw [freezeWithin] at h
    cases h
    exact .void
  | case2 path b =>
    rw [freezeWithin] at h
    cases h
    exact .bool b
  | case3 path n =>
    rw [freezeWithin] at h
    cases h
    exact .int n
  | case4 path x =>
    rw [freezeWithin] at h
    cases h
    exact .float x
  | case5 path text =>
    rw [freezeWithin] at h
    cases h
    exact .string text
  | case6 path a henter cell hfetch ih =>
    have hfind := hheld.find?_eq
    rw [hfetch] at hfind
    have hplain : s.plain.find? a = some (.list cell) := by
      rw [find?_plain, hfind]
      rfl
    have hchild : ∀ x ∈ (s.fetch a).children, ∀ node, s.freezeWithin (a :: path) x = .ok node →
        s.plain.Unfolds x node := fun x hmem node => ih x (hheld.of_child hmem)
    rw [hfetch] at hchild
    rw [freezeWithin, dif_pos henter, hfetch] at h
    obtain ⟨sample, hsample, h⟩ := exists_of_bind_ok h
    obtain ⟨items, hitems, h⟩ := exists_of_bind_ok h
    cases h
    exact .list hplain
      (forall₂_imp_of_mem (forall₂_of_mapM hsample) fun x hmem node _ hnode =>
        hchild x (List.mem_append_left _ hmem) node hnode)
      (forall₂_imp_of_mem (forall₂_of_mapM hitems) fun x hmem node _ hnode =>
        hchild x (List.mem_append_right _ hmem) node hnode)
  | case7 path a henter cell hfetch d hobject =>
    rw [freezeWithin, dif_pos henter, hfetch] at h
    simp only [hobject] at h
    cases h
  | case8 path a henter cell hfetch hobject _ ih =>
    have hfind := hheld.find?_eq
    rw [hfetch] at hfind
    have hplain : s.plain.find? a = some (.map { cell with object := .map }) := by
      rw [find?_plain, hfind]
      rfl
    have hchild : ∀ x ∈ (s.fetch a).children, ∀ node, s.freezeWithin (a :: path) x = .ok node →
        s.plain.Unfolds x node := fun x hmem node => ih x (hheld.of_child hmem)
    rw [hfetch] at hchild
    rw [freezeWithin, dif_pos henter, hfetch] at h
    simp only at h
    obtain ⟨entries, hentries, h⟩ := exists_of_bind_ok h
    obtain ⟨sample, hsample, h⟩ := exists_of_bind_ok h
    cases h
    have hall : List.Forall₂ (fun e node => e.1 = node.1 ∧ s.plain.Unfolds e.2 node.2)
        cell.entries.toList entries := by
      refine forall₂_imp_of_mem (forall₂_of_mapM hentries) fun e hmem node _ hnode => ?_
      obtain ⟨value, hvalue, hnode⟩ := exists_of_bind_ok hnode
      cases hnode
      exact ⟨rfl, hchild e.2 (List.mem_append_right _ (List.mem_map_of_mem hmem)) value hvalue⟩
    obtain ⟨hkeys, hvalues⟩ := forall₂_entries_iff.mp hall
    refine @Unfolds.map _ _ { cell with object := .map } _ _ hplain rfl ?_ hkeys hvalues
    exact forall₂_imp_of_mem (forall₂_of_mapM hsample) fun x hmem node _ hnode =>
      hchild x (List.mem_append_left _ hmem) node hnode
  | case9 path a henter =>
    rw [freezeWithin, dif_neg henter] at h
    cases h

section Comparing

variable {a b : Address} {p q : Value × Value}

-- The second value has the types of the first one, but for the object type of a map, which is that
-- of a plain map.
def Retyped (t : Store) : Value → Value → Prop
  | .container a, .container b =>
    (t.fetch b).key = (t.fetch a).key ∧ (t.fetch b).element = (t.fetch a).element ∧
      (t.fetch b).object = (t.fetch a).kind ∧
      (t.fetch b).children.length = (t.fetch a).children.length
  | v, w => v = w

-- From two containers to what they hold in the same place.
inductive Beside (t : Store) : Value × Value → Value × Value → Prop
  | inside {a b : Address} {pair : Value × Value}
      (h : pair ∈ (t.fetch a).children.zip (t.fetch b).children) :
      Beside t (.container a, .container b) pair

-- From a container to what represents its contents.
def Shows (s : Store) (v w : Value) : Prop :=
  ∃ a, v = .container a ∧ w ∈ (s.fetch a).representative

theorem Alike.exists_copy (h : Alike s.plain t (.container a) w) (hext : s.Extends t) :
    t.fetch a = s.fetch a ∧ ∃ b, w = .container b ∧
      (t.fetch a).plain.outline = (t.fetch b).outline ∧
      ∀ pair ∈ (t.fetch a).children.zip (t.fetch b).children, Alike s.plain t pair.1 pair.2 := by
  cases h with
  | scalar h => cases h
  | container hleft hright houtline h =>
    rw [find?_plain] at hleft
    obtain ⟨c, hfind, rfl⟩ := Option.map_eq_some_iff.mp hleft
    have hfetch := fetch_of_find? (hext _ _ hfind)
    rw [Container.children_plain] at h
    refine ⟨hfetch.trans (fetch_of_find? hfind).symm, _, rfl, ?_⟩
    rw [hfetch, fetch_of_find? hright]
    exact ⟨houtline, h⟩

-- Where all maps are plain there is nothing to tell apart.
theorem Alike.of_plain (h : Alike s.plain t v w) (harch : s.Archivable v) : Alike s t v w := by
  induction h with
  | scalar h => exact .scalar h
  | @container a b c d hleft hright houtline _ ih =>
    rw [find?_plain] at hleft
    obtain ⟨c, hfind, rfl⟩ := Option.map_eq_some_iff.mp hleft
    have hfetch := fetch_of_find? hfind
    have hsame : c.plain = c := by
      cases c with
      | list cell => rfl
      | map cell =>
        have hobject := harch.plain a cell (reaches_self s a) hfetch
        rw [Container.plain, ← hobject]
    rw [hsame] at houtline ih
    refine .container hfind hright houtline fun pair hpair => ih pair hpair (harch.of_child ?_)
    rw [hfetch]
    exact (List.of_mem_zip hpair).1

theorem Alike.retyped (h : Alike s.plain t v w) (hext : s.Extends t) : t.Retyped v w := by
  cases v with
  | container a =>
    obtain ⟨_, b, rfl, houtline, _⟩ := h.exists_copy hext
    have hkey := congrArg Container.key houtline
    have helement := congrArg Container.element houtline
    have hobject := congrArg Container.object houtline
    have hlength := congrArg (fun c => c.children.length) houtline
    simp only [Container.key_outline, Container.element_outline, Container.object_outline,
      Container.length_children_outline, Container.key_plain, Container.element_plain,
      Container.object_plain, Container.children_plain] at hkey helement hobject hlength
    exact ⟨hkey.symm, helement.symm, hobject.symm, hlength.symm⟩
  | _ =>
    cases h
    rfl

theorem Alike.of_beside (h : Alike s.plain t p.1 p.2) (hext : s.Extends t) (hstep : t.Beside p q) :
    Alike s.plain t q.1 q.2 := by
  obtain ⟨hpair⟩ := hstep
  obtain ⟨_, b, hb, _, hchildren⟩ := h.exists_copy hext
  cases hb
  exact hchildren q hpair

theorem Alike.representative (h : Alike s.plain t (.container a) (.container b))
    (hext : s.Extends t) :
    List.Forall₂ (Alike s.plain t) (t.fetch a).representative (t.fetch b).representative := by
  obtain ⟨_, _, hb, houtline, hchildren⟩ := h.exists_copy hext
  cases hb
  have hopposite := Container.opposite_representative houtline
  rw [Container.representative_plain] at hopposite
  refine hopposite.imp fun v w hvw => ?_
  obtain hpair | ⟨text, rfl, rfl⟩ := hvw
  · rw [Container.children_plain] at hpair
    exact hchildren _ hpair
  · exact .scalar rfl

-- A comparison with the copy of a value comes to what represents the value, side by side with what
-- represents the copy.
theorem Alike.of_reached (h : Alike s.plain t v w) (hext : s.Extends t)
    (hway : Relation.ReflTransGen t.LeadsTo (v, w) q) :
    Relation.ReflTransGen s.Shows v q.1 ∧ Alike s.plain t q.1 q.2 := by
  induction hway with
  | refl => exact ⟨.refl, h⟩
  | tail _ hstep ih =>
    obtain ⟨hshown, halike⟩ := ih
    obtain ⟨hpair⟩ := hstep
    have hmem := (List.of_mem_zip hpair).1
    rw [(halike.exists_copy hext).1] at hmem
    refine ⟨hshown.tail ⟨_, rfl, hmem⟩, ?_⟩
    exact (List.forall₂_iff_zip.mp (halike.representative hext)).2 hpair

theorem Alike.exists_reached (h : Alike s.plain t v w) (hext : s.Extends t) {x : Value}
    (hway : Relation.ReflTransGen s.Shows v x) :
    ∃ y, Relation.ReflTransGen t.LeadsTo (v, w) (x, y) ∧ Alike s.plain t x y := by
  induction hway with
  | refl => exact ⟨w, .refl, h⟩
  | tail _ hstep ih =>
    obtain ⟨y, hreached, halike⟩ := ih
    obtain ⟨a, rfl, hmem⟩ := hstep
    obtain ⟨hfetch, b, rfl, _⟩ := halike.exists_copy hext
    rw [← hfetch] at hmem
    obtain ⟨y, hpair, hy⟩ := exists_mem_zip_of_forall₂ (halike.representative hext) hmem
    exact ⟨y, hreached.tail (.inside hpair), hy⟩

theorem Alike.agree_iff (h : Alike s.plain t v w) (hext : s.Extends t) :
    t.Agree v w ↔ ∀ a, v = .container a → (s.fetch a).object = (s.fetch a).kind := by
  have hretyped := h.retyped hext
  cases v with
  | container a =>
    obtain ⟨hfetch, b, rfl, _⟩ := h.exists_copy hext
    obtain ⟨hkey, helement, hobject, _⟩ := hretyped
    rw [hfetch] at hkey helement hobject
    simp only [Agree, hfetch, hkey, helement, hobject, Tag.compatible_self, and_true]
    exact ⟨fun h _ ha => by cases ha; exact h, fun h => h a rfl⟩
  | _ =>
    cases h
    refine ⟨fun _ a ha => ?_, fun _ => agree_self t _⟩
    cases ha

-- A value is compatible with its copy when all that it shows are lists and plain maps.
theorem Alike.compatible_iff (h : Alike s.plain t v w) (hext : s.Extends t) :
    t.compatible v w = true ↔
      ∀ a, Relation.ReflTransGen s.Shows v (.container a) →
        (s.fetch a).object = (s.fetch a).kind := by
  rw [compatible_iff_reached]
  constructor
  · intro hall a hshown
    obtain ⟨y, hreached, halike⟩ := h.exists_reached hext hshown
    exact (halike.agree_iff hext).mp (hall _ hreached) a rfl
  · intro hall q hreached
    obtain ⟨hshown, halike⟩ := h.of_reached hext hreached
    exact (halike.agree_iff hext).mpr fun a ha => hall a (ha ▸ hshown)

end Comparing

-- An archive reads as the value with a plain map for every map.
theorem exists_alike_of_emission {bytes : Bytes} (hheld : s.Held v) (h : s.emission v = { bytes })
    (hlength : bytes.length < byteCapacity 8) :
    ∃ tree, (∀ rest, Archived.decode (bytes ++ rest) = .ok (tree, rest)) ∧
      ∀ t, s.Extends t →
        s.Extends (tree.thaw t).2 ∧ Alike s.plain (tree.thaw t).2 v (tree.thaw t).1 := by
  rw [emission] at h
  cases hfreeze : s.freeze v with
  | error fault =>
    rw [hfreeze] at h
    cases h
  | ok tree =>
    rw [hfreeze] at h
    cases h
    refine ⟨tree, Archived.reads_decode (Archived.wordSized_of_length_lt hlength), fun t hext => ?_⟩
    obtain ⟨hgrow, halike⟩ := builds_thaw (unfolds_plain_of_freezeWithin hheld hfreeze) t
    exact ⟨hext.trans hgrow, halike⟩

-- What the archive of a value reads as has the types of the value, only that a map of whatever
-- object type reads as a plain map. The two are compatible unless the comparison comes to a map
-- that is not plain.
theorem types_of_emission {bytes : Bytes} (hheld : s.Held v) (h : s.emission v = { bytes })
    (hlength : bytes.length < byteCapacity 8) :
    ∃ tree, (∀ rest, Archived.decode (bytes ++ rest) = .ok (tree, rest)) ∧
      ∀ t, s.Extends t →
        (∀ q, Relation.ReflTransGen (tree.thaw t).2.Beside (v, (tree.thaw t).1) q →
          (tree.thaw t).2.Retyped q.1 q.2) ∧
        ((tree.thaw t).2.compatible v (tree.thaw t).1 = true ↔ ∀ a,
          Relation.ReflTransGen s.Shows v (.container a) → (s.fetch a).object = (s.fetch a).kind) ∧
        (tree.thaw t).2.compatible (tree.thaw t).1 v =
          (tree.thaw t).2.compatible v (tree.thaw t).1 := by
  obtain ⟨tree, hreads, hbuilt⟩ := exists_alike_of_emission hheld h hlength
  refine ⟨tree, hreads, fun t hext => ?_⟩
  obtain ⟨hlarger, halike⟩ := hbuilt t hext
  refine ⟨fun q hway => ?_, halike.compatible_iff hlarger, compatible_comm _ _ _⟩
  have hq : Alike s.plain (tree.thaw t).2 q.1 q.2 := by
    induction hway with
    | refl => exact halike
    | tail _ hstep ih => exact ih.of_beside hlarger hstep
  exact hq.retyped hlarger

-- A map with another object type, and a list that holds it and has a number for its sample.
def anyStore : Store where
  cells := #[
    some (.list { element := .map, sample := some (.int 0), items := [.container ⟨1⟩] }),
    some (.map (.new .any .string .int))]

theorem held_anyStore {a : Address} (h : anyStore.Lives a) : anyStore.Held (.container a) := by
  have hrefers (a b : Address) (h : anyStore.Refers a b) : b = ⟨1⟩ := by
    obtain ⟨c, hfind, hmem⟩ := exists_find?_of_refers h
    obtain ⟨n⟩ := a
    match n with
    | 0 =>
      cases hfind
      exact List.mem_singleton.mp hmem
    | 1 =>
      cases hfind
      cases hmem
    | n + 2 => simp [find?, anyStore] at hfind
  rintro b ⟨_, ⟨⟩, hway⟩
  cases hway with
  | refl => exact h
  | tail _ hstep =>
    rw [hrefers _ _ hstep]
    rfl

theorem shown_anyStore {v : Value}
    (hway : Relation.ReflTransGen anyStore.Shows (.container ⟨0⟩) v) :
    v = .container ⟨0⟩ ∨ v = .int 0 := by
  induction hway with
  | refl => exact .inl rfl
  | tail _ hstep ih =>
    obtain ⟨a, hcontainer, hmem⟩ := hstep
    obtain hhead | hscalar := ih
    · cases hcontainer.symm.trans hhead
      exact .inr (List.mem_singleton.mp hmem)
    · cases hcontainer.symm.trans hscalar

theorem types_of_emission_anyStore :
    ∃ bytes tree, anyStore.emission (.container ⟨0⟩) = { bytes } ∧
      Archived.decode bytes = .ok (tree, []) ∧
      (tree.thaw anyStore).2.compatible (.container ⟨0⟩) (tree.thaw anyStore).1 = true := by
  have hlives : anyStore.Lives ⟨0⟩ := rfl
  have hemission : anyStore.emission (.container ⟨0⟩) =
      { bytes := (anyStore.emission (.container ⟨0⟩)).bytes } :=
    Archive.Emission.eq_of_unharmed (by decide +kernel)
  have hlength : (anyStore.emission (.container ⟨0⟩)).bytes.length < byteCapacity 8 := by
    decide +kernel
  obtain ⟨tree, hreads, hcopy⟩ := types_of_emission (held_anyStore hlives) hemission hlength
  obtain ⟨_, hcompatible, _⟩ := hcopy anyStore (.refl _)
  have hread := hreads []
  rw [List.append_nil] at hread
  refine ⟨_, tree, hemission, hread, hcompatible.mpr fun a hway => ?_⟩
  obtain hhead | hscalar := shown_anyStore hway
  · cases hhead
    rfl
  · cases hscalar

-- A map of another object type has an archive, and is at odds with what it reads as.
theorem not_compatible_anyMap :
    ∃ bytes tree, anyStore.emission (.container ⟨1⟩) = { bytes } ∧
      Archived.decode bytes = .ok (tree, []) ∧
      (tree.thaw anyStore).2.compatible (.container ⟨1⟩) (tree.thaw anyStore).1 = false ∧
      (tree.thaw anyStore).2.compatible (tree.thaw anyStore).1 (.container ⟨1⟩) = false ∧
      (tree.thaw anyStore).2.tag (.container ⟨1⟩) = .any ∧
      (tree.thaw anyStore).2.tag (tree.thaw anyStore).1 = .map := by
  have hlives : anyStore.Lives ⟨1⟩ := rfl
  have hemission : anyStore.emission (.container ⟨1⟩) =
      { bytes := (anyStore.emission (.container ⟨1⟩)).bytes } :=
    Archive.Emission.eq_of_unharmed (by decide +kernel)
  obtain ⟨tree, hreads, hbuilt⟩ := exists_alike_of_emission (held_anyStore hlives) hemission
    (by decide +kernel)
  obtain ⟨hlarger, halike⟩ := hbuilt anyStore (.refl _)
  have hread := hreads []
  rw [List.append_nil] at hread
  have hobject : anyStore.fetch ⟨1⟩ = .map (.new .any .string .int) := rfl
  have hodd :
      (tree.thaw anyStore).2.compatible (.container ⟨1⟩) (tree.thaw anyStore).1 = false := by
    refine Bool.eq_false_iff.mpr fun htrue => ?_
    have hplain := (halike.compatible_iff hlarger).mp htrue ⟨1⟩ .refl
    cases hplain
  obtain ⟨hfetch, b, hb, _⟩ := halike.exists_copy hlarger
  have hretyped := halike.retyped hlarger
  refine ⟨_, tree, hemission, hread, hodd, by rw [compatible_comm, hodd], ?_, ?_⟩
  · rw [tag, hfetch]
    rfl
  · rw [hb] at hretyped ⊢
    rw [tag, hretyped.2.2.1, hfetch]
    rfl

end Store

end Conductor
