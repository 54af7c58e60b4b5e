import Conductor.Proofs.Archive.Unfolding
import Conductor.Proofs.OrderedMap
import Conductor.Proofs.Store.Alike

namespace Conductor

namespace Archived

open Store

theorem thawAll_eq_traverse (t : Store) (nodes : List Archived) :
    thawAll t nodes = t.traverse thaw nodes := by
  induction nodes generalizing t with
  | nil => rfl
  | cons node rest ih => simp only [thawAll, Store.traverse, ih]

-- An entry keeps its key.
def thawEntry (t : Store) (entry : String × Archived) : (String × Value) × Store :=
  ((entry.1, (thaw t entry.2).1), (thaw t entry.2).2)

theorem thawEntries_eq_traverse (t : Store) (entries : List (String × Archived)) :
    thawEntries t entries = t.traverse thawEntry entries := by
  induction entries generalizing t with
  | nil => rfl
  | cons entry rest ih => simp only [thawEntries, Store.traverse, thawEntry, ih]

end Archived

namespace Store

theorem Unfolds.of_extends {s t : Store} {v : Value} {tree : Archived} (h : s.Unfolds v tree)
    (hext : s.Extends t) : t.Unfolds v tree := by
  induction tree using Archived.ind generalizing v with
  | void => cases h; exact .void
  | bool b => cases h; exact .bool b
  | int n => cases h; exact .int n
  | float x => cases h; exact .float x
  | string text => cases h; exact .string text
  | list element sample items ihsample ihitems =>
    cases h with
    | list hfind hsample hitems =>
      refine .list (hext _ _ hfind) ?_ ?_
      · exact forall₂_imp_of_mem hsample fun _ _ node hnode h => ihsample node hnode h
      · exact forall₂_imp_of_mem hitems fun _ _ node hnode h => ihitems node hnode h
  | map key element sample entries ihsample ihentries =>
    cases h with
    | map hfind hobject hsample hkeys hvalues =>
      refine .map (hext _ _ hfind) hobject ?_ hkeys ?_
      · exact forall₂_imp_of_mem hsample fun _ _ node hnode h => ihsample node hnode h
      · refine forall₂_imp_of_mem hvalues fun _ _ node hnode h => ?_
        obtain ⟨entry, hentry, rfl⟩ := List.mem_map.mp hnode
        exact ihentries entry hentry h

-- A fresh container stands for one of the same outline with like children.
theorem Builds.allocate {s t : Store} {a : Address} {c d : Container}
    (hfind : s.find? a = some c) (houtline : c.outline = d.outline)
    (h : List.Forall₂ (Alike s t) c.children d.children) :
    t.Extends (t.allocateValue d).2 ∧
      Alike s (t.allocateValue d).2 (.container a) (t.allocateValue d).1 := by
  have hext := extends_allocate t d
  refine ⟨hext, .container hfind (find?_allocate_self t d) houtline fun pair hpair => ?_⟩
  exact ((List.forall₂_iff_zip.mp h).2 hpair).of_extends hext

theorem outline_list_eq {c d : ListCell} (helement : c.element = d.element)
    (hsample : c.sample.toList.length = d.sample.toList.length)
    (hitems : c.items.length = d.items.length) :
    (Container.list c).outline = (Container.list d).outline := by
  have hsamples : c.sample.map (fun _ => Value.void) = d.sample.map fun _ => .void := by
    cases hc : c.sample <;> cases hd : d.sample <;> simp_all
  simp only [Container.outline, helement, hsamples, List.map_const', hitems]

theorem outline_map_eq {c d : MapCell} (hobject : c.object = d.object) (hkey : c.key = d.key)
    (helement : c.element = d.element)
    (hsample : (Container.map c).sample.length = (Container.map d).sample.length)
    (hkeys : c.entries.keys = d.entries.keys) :
    (Container.map c).outline = (Container.map d).outline := by
  have hsamples : c.sample.map (fun _ => (Value.void, Value.void)) =
      d.sample.map fun _ => (.void, .void) := by
    cases hc : c.sample <;> cases hd : d.sample <;> simp_all [Container.sample]
  have hentries : c.entries.map (fun _ => Value.void) = d.entries.map fun _ => .void := by
    have hlist := congrArg (List.map fun key => (key, Value.void)) hkeys
    simp only [OrderedMap.keys, List.map_map] at hlist
    exact OrderedMap.ext_toList hlist
  simp only [Container.outline, hobject, hkey, helement, hsamples, hentries]

-- Of samples that stand for those of a list the last one is the only one.
theorem toList_getLast? {α β : Type} {R : α → β → Prop} {sample : Option α} {values : List β}
    (h : List.Forall₂ R sample.toList values) : values.getLast?.toList = values := by
  cases sample with
  | none =>
    cases h
    rfl
  | some v =>
    obtain ⟨w, _, _, hnil, rfl⟩ := List.forall₂_cons_left_iff.mp h
    cases hnil
    rfl

-- Of samples that stand for those of a map the first two are all there are.
theorem sample_of_forall₂ {R : Value → Value → Prop} {c d : MapCell} {values : List Value}
    (hd : d.sample =
      match values with
      | key :: value :: _ => some (key, value)
      | _ => none)
    (h : List.Forall₂ R (Container.map c).sample values) : (Container.map d).sample = values := by
  cases hc : c.sample with
  | none =>
    simp only [Container.sample, hc] at h
    cases h
    simp [Container.sample, hd]
  | some pair =>
    simp only [Container.sample, hc] at h
    obtain ⟨key, _, _, hrest, rfl⟩ := List.forall₂_cons_left_iff.mp h
    obtain ⟨value, _, _, hnil, rfl⟩ := List.forall₂_cons_left_iff.mp hrest
    cases hnil
    simp [Container.sample, hd]

theorem builds_thawAll {s : Store} {vs : List Value} {nodes : List Archived}
    (h : List.Forall₂ (fun v node => Builds (Alike s) v fun t => Archived.thaw t node) vs nodes) :
    Builds (fun t => List.Forall₂ (Alike s t)) vs fun t => Archived.thawAll t nodes := by
  simp only [Archived.thawAll_eq_traverse]
  exact builds_traverse (persistent_alike s) h

theorem builds_thawEntries {s : Store} {es : List (String × Value)}
    {entries : List (String × Archived)}
    (h : List.Forall₂
      (fun e entry => e.1 = entry.1 ∧ Builds (Alike s) e.2 fun t => Archived.thaw t entry.2)
      es entries) :
    Builds (fun t => List.Forall₂ fun e f => e.1 = f.1 ∧ Alike s t e.2 f.2) es
      fun t => Archived.thawEntries t entries := by
  simp only [Archived.thawEntries_eq_traverse]
  refine builds_traverse (fun t u e f hext h => ⟨h.1, h.2.of_extends hext⟩) (h.imp ?_)
  intro e entry hentry t
  exact ⟨(hentry.2 t).1, hentry.1, (hentry.2 t).2⟩

theorem builds_thaw_list {s : Store} {a : Address} {cell : ListCell} {sample items : List Archived}
    (hfind : s.find? a = some (.list cell))
    (hsample : List.Forall₂ (fun v node => Builds (Alike s) v fun t => Archived.thaw t node)
      cell.sample.toList sample)
    (hitems : List.Forall₂ (fun v node => Builds (Alike s) v fun t => Archived.thaw t node)
      cell.items items) :
    Builds (Alike s) (.container a) fun t => Archived.thaw t (.list cell.element sample items) := by
  intro t
  obtain ⟨hgrow, hsamples, hvalues⟩ := (builds_thawAll hsample).followed
    (persistent_forall₂ (persistent_alike s)) (builds_thawAll hitems) t
  simp only [Archived.thaw] at hgrow hsamples hvalues ⊢
  generalize Archived.thawAll t sample = built at *
  generalize Archived.thawAll built.2 items = last at *
  have hlast := toList_getLast? hsamples
  have hsampleChildren : List.Forall₂ (Alike s last.2) cell.sample.toList
      built.1.getLast?.toList := by
    rw [hlast]
    exact hsamples
  have halike := Builds.allocate (t := last.2)
    (d := .list { element := cell.element, sample := built.1.getLast?, items := last.1 }) hfind
    (outline_list_eq rfl (by rw [hlast, hsamples.length_eq]) hvalues.length_eq)
    (List.rel_append hsampleChildren hvalues)
  exact ⟨hgrow.trans halike.1, halike.2⟩

theorem builds_thaw_map {s : Store} {a : Address} {cell : MapCell} {sample : List Archived}
    {entries : List (String × Archived)} (hfind : s.find? a = some (.map cell))
    (hobject : cell.object = .map)
    (hsample : List.Forall₂ (fun v node => Builds (Alike s) v fun t => Archived.thaw t node)
      (Container.map cell).sample sample)
    (hentries : List.Forall₂
      (fun e entry => e.1 = entry.1 ∧ Builds (Alike s) e.2 fun t => Archived.thaw t entry.2)
      cell.entries.toList entries) :
    Builds (Alike s) (.container a)
      fun t => Archived.thaw t (.map cell.key cell.element sample entries) := by
  intro t
  obtain ⟨hgrow, hsamples, hbuilt⟩ := (builds_thawAll hsample).followed
    (persistent_forall₂ (persistent_alike s)) (builds_thawEntries hentries) t
  simp only [Archived.thaw] at hgrow hsamples hbuilt ⊢
  generalize Archived.thawAll t sample = built at *
  generalize Archived.thawEntries built.2 entries = last at *
  obtain ⟨hnames, hlike⟩ := forall₂_entries_iff.mp hbuilt
  have hfresh : (OrderedMap.ofList last.1).toList = last.1 :=
    OrderedMap.toList_ofList (hnames ▸ cell.entries.nodup)
  generalize hd : MapCell.mk .map cell.key cell.element _ (.ofList last.1) false = d
  have hpair : (Container.map d).sample = built.1 :=
    sample_of_forall₂ (by subst hd; rfl) hsamples
  have hsampleChildren : List.Forall₂ (Alike s last.2) (Container.map cell).sample
      (Container.map d).sample := by
    rw [hpair]
    exact hsamples
  have hcontents : List.Forall₂ (Alike s last.2) cell.entries.values d.entries.values := by
    rw [← hd]
    simpa only [OrderedMap.values, hfresh] using hlike
  have hnamesEq : cell.entries.keys = d.entries.keys := by
    rw [← hd]
    simpa only [OrderedMap.keys, hfresh] using hnames
  have houtline : (Container.map cell).outline = (Container.map d).outline :=
    outline_map_eq (by rw [hobject, ← hd]) (by rw [← hd]) (by rw [← hd])
      (by rw [hpair, hsamples.length_eq]) hnamesEq
  have halike := Builds.allocate hfind houtline (List.rel_append hsampleChildren hcontents)
  exact ⟨hgrow.trans halike.1, halike.2⟩

theorem builds_thaw {s : Store} {v : Value} {tree : Archived} (h : s.Unfolds v tree) :
    Builds (Alike s) v fun t => tree.thaw t := by
  induction tree using Archived.ind generalizing v with
  | void =>
    cases h
    exact fun t => ⟨.refl t, .scalar rfl⟩
  | bool b =>
    cases h
    exact fun t => ⟨.refl t, .scalar rfl⟩
  | int n =>
    cases h
    exact fun t => ⟨.refl t, .scalar rfl⟩
  | float x =>
    cases h
    exact fun t => ⟨.refl t, .scalar rfl⟩
  | string text =>
    cases h
    exact fun t => ⟨.refl t, .scalar rfl⟩
  | list element sample items ihsample ihitems =>
    cases h with
    | list hfind hsample hitems =>
      apply builds_thaw_list hfind
      · exact forall₂_imp_of_mem hsample fun _ _ node hnode h => ihsample node hnode h
      · exact forall₂_imp_of_mem hitems fun _ _ node hnode h => ihitems node hnode h
  | map key element sample entries ihsample ihentries =>
    cases h with
    | map hfind hobject hsample hkeys hvalues =>
      apply builds_thaw_map hfind hobject
      · exact forall₂_imp_of_mem hsample fun _ _ node hnode h => ihsample node hnode h
      · exact forall₂_imp_of_mem (forall₂_entries_iff.mpr ⟨hkeys, hvalues⟩)
          fun _ _ entry hentry h => ⟨h.1, ihentries entry hentry h.2⟩

theorem exists_carries {s : Store} {v : Value} (hres : s.Resident v) (harch : s.Archivable v) :
    ∃ tree, Archive.Carries (s.emission v) Archived.decode tree ∧ s.Unfolds v tree := by
  obtain ⟨tree, hfreeze, hunfolds⟩ := exists_freeze hres harch
  refine ⟨tree, ?_, hunfolds⟩
  rw [emission, hfreeze]
  exact ⟨rfl, Archived.reads_decode (hunfolds.wordSized hres)⟩

-- An archive is read to its last byte and no further. What it builds in any store unfolds like the
-- value, and leaves everything that the store holds as it is.
theorem exists_archive_thaw_alike (s : Store) (v : Value) (hres : s.Resident v)
    (harch : s.Archivable v) :
    ∃ bytes tree, s.emission v = { bytes } ∧
      (∀ rest, Archived.decode (bytes ++ rest) = .ok (tree, rest)) ∧
      ∀ t, t.Extends (tree.thaw t).2 ∧ Alike s (tree.thaw t).2 v (tree.thaw t).1 := by
  obtain ⟨tree, hcarries, hunfolds⟩ := exists_carries hres harch
  exact ⟨(s.emission v).bytes, tree, Archive.Emission.eq_of_unharmed hcarries.unharmed,
    hcarries.reads, builds_thaw hunfolds⟩

-- A list that a map holds as its sample and twice among its entries.
def sharedList : Container :=
  .list { element := .int, sample := some (.int (-1)), items := [.int 7, .float .nan] }

def sharedMap : Container :=
  .map {
    object := .map, key := .string, element := .list
    sample := some (.string "é", .container ⟨0⟩)
    entries := ⟨[("b", .container ⟨0⟩), ("a", .container ⟨0⟩)], by decide⟩ }

def sharedStore : Store where
  cells := #[some sharedList, some sharedMap]

theorem resident_archivable_shared {v : Value} (hscalar : v.WordSized)
    (hlive : ∀ a, v = .container a → ∃ c, sharedStore.find? a = some c) :
    sharedStore.Resident v ∧ sharedStore.Archivable v := by
  have hfind : ∀ a c, sharedStore.find? a = some c →
      a = ⟨0⟩ ∧ c = sharedList ∨ a = ⟨1⟩ ∧ c = sharedMap := by
    rintro ⟨n⟩ c h
    match n with
    | 0 => exact .inl ⟨rfl, (Option.some.inj h).symm⟩
    | 1 => exact .inr ⟨rfl, (Option.some.inj h).symm⟩
    | n + 2 => simp [find?, sharedStore] at h
  have hlist : sharedList.references = [] := rfl
  have hmap : sharedMap.references = [⟨0⟩, ⟨0⟩, ⟨0⟩] := rfl
  have hsound : sharedStore.Sound := by
    constructor <;> intro a c h <;> obtain ⟨rfl, rfl⟩ | ⟨rfl, rfl⟩ := hfind a c h
    · decide +kernel
    · decide +kernel
    · simp [hlist]
    · simp only [hmap, List.mem_cons, List.not_mem_nil, or_false, or_self, forall_eq]
      exact ⟨sharedList, rfl⟩
  have hres : sharedStore.Resident v := hsound.resident hscalar hlive
  have holder : ∀ a b, sharedStore.Refers a b → b.index < a.index := by
    intro a b h
    cases hlive : sharedStore.find? a with
    | none =>
      rw [Refers, fetch, hlive] at h
      cases h
    | some c =>
      rw [Refers, fetch_of_find? hlive] at h
      obtain ⟨rfl, rfl⟩ | ⟨rfl, rfl⟩ := hfind a c hlive
      · simp [hlist] at h
      · simp [hmap] at h
        simp [h]
  refine ⟨hres, fun a _ => not_transGen_self_of_older holder a, fun a cell hway hfetch => ?_⟩
  obtain ⟨c, hlive, _⟩ := hres.container a hway
  rw [fetch_of_find? hlive] at hfetch
  obtain ⟨rfl, rfl⟩ | ⟨rfl, rfl⟩ := hfind a c hlive <;> cases hfetch
  rfl

theorem exists_archive_thaw_alike_shared :
    sharedStore.Resident (.container ⟨1⟩) ∧ sharedStore.Archivable (.container ⟨1⟩) ∧
      ∃ bytes tree, sharedStore.emission (.container ⟨1⟩) = { bytes } ∧
        (∀ rest, Archived.decode (bytes ++ rest) = .ok (tree, rest)) ∧
        ∀ t, t.Extends (tree.thaw t).2 ∧
          Alike sharedStore (tree.thaw t).2 (.container ⟨1⟩) (tree.thaw t).1 := by
  obtain ⟨hres, harch⟩ := resident_archivable_shared (v := .container ⟨1⟩) trivial
    fun a h => ⟨sharedMap, by cases h; rfl⟩
  exact ⟨hres, harch, exists_archive_thaw_alike _ _ hres harch⟩

end Store

end Conductor
