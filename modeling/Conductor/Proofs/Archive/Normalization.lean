import Conductor.Proofs.Archive.Nodes
import Conductor.Proofs.Archive.Thawing

namespace Conductor

namespace Archived

open Archive Store

variable {tree node child : Archived}

-- The first two of two or more samples.
def firstTwo {α : Type} : List α → List α
  | first :: second :: _ => [first, second]
  | [] | [_] => []

mutual

-- What is left of a tree when it has been thawed.
def normalize : Archived → Archived
  | void => void
  | bool b => bool b
  | int n => int n
  | float x => float x
  | string s => string s
  | list element sample items =>
    list element (normalizeAll sample).getLast?.toList (normalizeAll items)
  | map key element sample entries =>
    map key element (firstTwo (normalizeAll sample))
      (OrderedMap.ofList (normalizeEntries entries)).toList

def normalizeAll : List Archived → List Archived
  | [] => []
  | node :: rest => normalize node :: normalizeAll rest

def normalizeEntries : List (String × Archived) → List (String × Archived)
  | [] => []
  | (key, node) :: rest => (key, normalize node) :: normalizeEntries rest

end

-- A list with at most one sample, or a map with none or two that repeats no key.
def Regular : Archived → Prop
  | list _ sample _ => sample.length ≤ 1
  | map _ _ sample entries =>
    (sample.length = 0 ∨ sample.length = 2) ∧ (entries.map Prod.fst).Nodup
  | void | bool _ | int _ | float _ | string _ => True

def normalizeEntry (entry : String × Archived) : String × Archived := (entry.1, entry.2.normalize)

theorem normalizeAll_eq (trees : List Archived) : normalizeAll trees = trees.map normalize := by
  induction trees with
  | nil => rfl
  | cons tree rest ih => rw [normalizeAll, ih, List.map_cons]

theorem normalizeEntries_eq (entries : List (String × Archived)) :
    normalizeEntries entries = entries.map normalizeEntry := by
  induction entries with
  | nil => rfl
  | cons entry rest ih => rw [normalizeEntries, ih, List.map_cons, normalizeEntry]

theorem sublist_toList_getLast? {α : Type} (values : List α) :
    values.getLast?.toList.Sublist values := by
  cases h : values.getLast? with
  | none => exact List.nil_sublist values
  | some last => exact List.singleton_sublist.mpr (List.mem_of_getLast? h)

theorem toList_getLast?_of_length_le {α : Type} {values : List α} (h : values.length ≤ 1) :
    values.getLast?.toList = values := by
  cases values with
  | nil => rfl
  | cons first rest =>
    obtain rfl : rest = [] := List.length_eq_zero_iff.mp (by simpa using h)
    rfl

theorem sublist_firstTwo {α : Type} (values : List α) : (firstTwo values).Sublist values := by
  cases values with
  | nil => exact List.nil_sublist _
  | cons first rest =>
    cases rest with
    | nil => exact List.nil_sublist _
    | cons second rest => exact (List.nil_sublist rest).cons_cons second |>.cons_cons first

theorem firstTwo_eq_self {α : Type} {values : List α} (h : values.length = 0 ∨ values.length = 2) :
    firstTwo values = values := by
  rcases h with h | h
  · obtain rfl := List.length_eq_zero_iff.mp h
    rfl
  · obtain ⟨first, second, rfl⟩ := List.length_eq_two.mp h
    rfl

theorem length_firstTwo {α : Type} (values : List α) :
    (firstTwo values).length = 0 ∨ (firstTwo values).length = 2 := by
  cases values with
  | nil => exact .inl rfl
  | cons first rest =>
    cases rest with
    | nil => exact .inl rfl
    | cons second rest => exact .inr rfl

section Fixed

theorem regular_normalize_self (tree : Archived) : tree.normalize.Regular := by
  cases tree with
  | list element sample items =>
    rw [normalize, Regular]
    exact Option.length_toList_le
  | map key element sample entries =>
    rw [normalize, Regular]
    exact ⟨length_firstTwo _, (OrderedMap.ofList _).nodup⟩
  | _ => trivial

-- Below a node in normal form there are only nodes in normal form.
theorem exists_of_mem_children_normalize (h : child ∈ tree.normalize.children) :
    ∃ origin ∈ tree.children, child = origin.normalize := by
  cases tree with
  | list element sample items =>
    rw [normalize, normalizeAll_eq, normalizeAll_eq] at h
    rcases List.mem_append.mp h with hmem | hmem
    · obtain ⟨origin, horigin, rfl⟩ := List.mem_map.mp ((sublist_toList_getLast? _).subset hmem)
      exact ⟨origin, List.mem_append_left _ horigin, rfl⟩
    · obtain ⟨origin, horigin, rfl⟩ := List.mem_map.mp hmem
      exact ⟨origin, List.mem_append_right _ horigin, rfl⟩
  | map key element sample entries =>
    rw [normalize, normalizeAll_eq, normalizeEntries_eq] at h
    rcases List.mem_append.mp h with hmem | hmem
    · obtain ⟨origin, horigin, rfl⟩ := List.mem_map.mp ((sublist_firstTwo _).subset hmem)
      exact ⟨origin, List.mem_append_left _ horigin, rfl⟩
    · obtain ⟨entry, hentry, rfl⟩ := List.mem_map.mp hmem
      obtain ⟨origin, horigin, rfl⟩ := List.mem_map.mp (OrderedMap.mem_of_mem_ofList hentry)
      exact ⟨origin.2, List.mem_append_right _ (List.mem_map_of_mem horigin), rfl⟩
  | _ => cases h

theorem regular_normalize (tree : Archived) : ∀ node ∈ tree.normalize.nodes, node.Regular := by
  have hnormal : ∀ node ∈ tree.normalize.nodes, ∃ origin : Archived, node = origin.normalize := by
    refine forall_nodes _ ⟨tree, rfl⟩ fun node hnode child hchild => ?_
    obtain ⟨origin, rfl⟩ := hnode
    obtain ⟨below, _, rfl⟩ := exists_of_mem_children_normalize hchild
    exact ⟨below, rfl⟩
  intro node hnode
  obtain ⟨origin, rfl⟩ := hnormal node hnode
  exact regular_normalize_self origin

theorem map_normalize_eq_self {trees : List Archived} (h : ∀ node ∈ trees, node.normalize = node) :
    trees.map normalize = trees := (List.map_congr_left h).trans (List.map_id _)

theorem normalize_of_regular (h : ∀ node ∈ tree.nodes, node.Regular) : tree.normalize = tree := by
  induction tree using ind with
  | list element sample items ihsample ihitems =>
    have hsample := map_normalize_eq_self fun node hmem => ihsample node hmem fun _ hnode =>
      h _ (mem_nodes_of_child (List.mem_append_left _ hmem) hnode)
    have hitems := map_normalize_eq_self fun node hmem => ihitems node hmem fun _ hnode =>
      h _ (mem_nodes_of_child (List.mem_append_right _ hmem) hnode)
    have hroot : sample.length ≤ 1 := h _ (mem_nodes_self _)
    rw [normalize, normalizeAll_eq, normalizeAll_eq, hsample, hitems,
      toList_getLast?_of_length_le hroot]
  | map key element sample entries ihsample ihentries =>
    have hsample := map_normalize_eq_self fun node hmem => ihsample node hmem fun _ hnode =>
      h _ (mem_nodes_of_child (List.mem_append_left _ hmem) hnode)
    have hentry : ∀ entry ∈ entries, normalizeEntry entry = entry := fun entry hmem =>
      Prod.ext rfl (ihentries entry hmem fun _ hnode =>
        h _ (mem_nodes_of_child (List.mem_append_right _ (List.mem_map_of_mem hmem)) hnode))
    have hentries : entries.map normalizeEntry = entries :=
      (List.map_congr_left hentry).trans (List.map_id _)
    have hroot : (sample.length = 0 ∨ sample.length = 2) ∧ (entries.map Prod.fst).Nodup :=
      h _ (mem_nodes_self _)
    rw [normalize, normalizeAll_eq, normalizeEntries_eq, hsample, hentries,
      firstTwo_eq_self hroot.1, OrderedMap.toList_ofList hroot.2]
  | _ => rfl

-- Trees in normal form are those of which nothing is dropped.
theorem normalize_normalize (tree : Archived) : tree.normalize.normalize = tree.normalize :=
  normalize_of_regular (regular_normalize tree)

theorem normalize_eq_self_iff : tree.normalize = tree ↔ ∀ node ∈ tree.nodes, node.Regular :=
  ⟨fun h => h ▸ regular_normalize tree, normalize_of_regular⟩

-- What is dropped takes bytes, and nothing is put in its place.
theorem length_encode_normalize_le (tree : Archived) :
    tree.normalize.encode.length ≤ tree.encode.length := by
  induction tree using ind with
  | list element sample items ihsample ihitems =>
    have hkept := length_flatMap_le_of_subperm encode
      (sublist_toList_getLast? (sample.map normalize)).subperm
    have hsample := length_flatMap_map_le ihsample
    have hitems := length_flatMap_map_le ihitems
    simp only [normalize, normalizeAll_eq, encode, encodeAll_eq, List.length_append, length_leBytes]
    omega
  | map key element sample entries ihsample ihentries =>
    have hkept := length_flatMap_le_of_subperm encode
      (sublist_firstTwo (sample.map normalize)).subperm
    have hsample := length_flatMap_map_le ihsample
    have hmerged := length_flatMap_le_of_subperm encodeEntry
      (OrderedMap.subperm_ofList (entries.map normalizeEntry))
    have hentries : ((entries.map normalizeEntry).flatMap encodeEntry).length ≤
        (entries.flatMap encodeEntry).length := by
      refine length_flatMap_map_le fun entry hmem => ?_
      have hvalue := ihentries entry hmem
      simp only [encodeEntry, normalizeEntry, List.length_append]
      omega
    simp only [normalize, normalizeAll_eq, normalizeEntries_eq, encode, encodeAll_eq,
      encodeEntries_eq, List.length_append, length_leBytes]
    omega
  | _ => exact Nat.le_refl _

end Fixed

end Archived

namespace Store

open Archived

theorem persistent_unfolds : Persistent fun s (tree : Archived) v => s.Unfolds v tree.normalize :=
  fun _ _ _ _ hext h => h.of_extends hext

end Store

namespace Archived

open Store

theorem forall₂_firstTwo {α β : Type} {R : α → β → Prop} {as : List α} {bs : List β}
    (h : List.Forall₂ R as bs) : List.Forall₂ R (firstTwo as) (firstTwo bs) := by
  cases h with
  | nil => exact .nil
  | cons hfirst hrest =>
    cases hrest with
    | nil => exact .nil
    | cons hsecond _ => exact .cons hfirst (.cons hsecond .nil)

theorem sample_eq_firstTwo {cell : MapCell} {values : List Value}
    (hcell : cell.sample =
      match values with
      | key :: value :: _ => some (key, value)
      | _ => none) : (Container.map cell).sample = firstTwo values := by
  cases values with
  | nil => simp only [Container.sample, hcell, firstTwo]
  | cons key rest =>
    cases rest with
    | nil => simp only [Container.sample, hcell, firstTwo]
    | cons value rest => simp only [Container.sample, hcell, firstTwo]

section Thawing

-- What is built for a tree unfolds to its normal form.
def Yields (tree : Archived) : Prop :=
  Builds (fun s node v => s.Unfolds v (normalize node)) tree fun t => thaw t tree

theorem builds_all {trees : List Archived} (h : ∀ node ∈ trees, node.Yields) :
    Builds (fun s nodes vs => List.Forall₂ s.Unfolds vs (normalizeAll nodes)) trees
      fun t => thawAll t trees := by
  simp only [thawAll_eq_traverse, normalizeAll_eq]
  intro t
  obtain ⟨hgrow, hbuilt⟩ := builds_traverse persistent_unfolds (List.forall₂_same.mpr h) t
  exact ⟨hgrow, List.forall₂_map_right_iff.mpr hbuilt.flip⟩

theorem builds_entries {entries : List (String × Archived)}
    (h : ∀ entry ∈ entries, entry.2.Yields) :
    Builds (fun s entries es =>
      List.Forall₂ (fun e entry => e.1 = entry.1 ∧ s.Unfolds e.2 entry.2) es
        (normalizeEntries entries)) entries fun t => thawEntries t entries := by
  simp only [thawEntries_eq_traverse, normalizeEntries_eq]
  intro t
  have hentry : ∀ entry ∈ entries,
      Builds (fun s entry e => e.1 = entry.1 ∧ s.Unfolds e.2 (normalize entry.2)) entry
        fun t => thawEntry t entry := fun entry hmem t =>
    ⟨(h entry hmem t).1, rfl, (h entry hmem t).2⟩
  obtain ⟨hgrow, hbuilt⟩ := builds_traverse (fun _ _ _ _ hext h => ⟨h.1, h.2.of_extends hext⟩)
    (List.forall₂_same.mpr hentry) t
  exact ⟨hgrow, List.forall₂_map_right_iff.mpr hbuilt.flip⟩

theorem yields_list {element : Tag} {sample items : List Archived}
    (hsample : ∀ node ∈ sample, node.Yields) (hitems : ∀ node ∈ items, node.Yields) :
    (list element sample items).Yields := by
  intro t
  obtain ⟨hgrow, hsamples, hvalues⟩ := (builds_all hsample).followed
    (fun _ _ _ _ hext h => h.imp fun _ _ h => h.of_extends hext) (builds_all hitems) t
  simp only [thaw, normalize] at hgrow hsamples hvalues ⊢
  generalize thawAll t sample = built at *
  generalize thawAll built.2 items = last at *
  have hext := extends_allocate last.2
    (.list { element, sample := built.1.getLast?, items := last.1 })
  refine ⟨hgrow.trans hext, .list (find?_allocate_self _ _) ?_ ?_⟩
  · exact (forall₂_getLast? hsamples).imp fun _ _ h => h.of_extends hext
  · exact hvalues.imp fun _ _ h => h.of_extends hext

theorem yields_map {key element : Tag} {sample : List Archived} {entries : List (String × Archived)}
    (hsample : ∀ node ∈ sample, node.Yields) (hentries : ∀ entry ∈ entries, entry.2.Yields) :
    (map key element sample entries).Yields := by
  intro t
  obtain ⟨hgrow, hsamples, hbuilt⟩ := (builds_all hsample).followed
    (fun _ _ _ _ hext h => h.imp fun _ _ h => h.of_extends hext) (builds_entries hentries) t
  simp only [thaw, normalize] at hgrow hsamples hbuilt ⊢
  generalize thawAll t sample = built at *
  generalize thawEntries built.2 entries = last at *
  obtain ⟨hkeys, hvalues⟩ := forall₂_entries_iff.mp (OrderedMap.forall₂_ofList hbuilt)
  generalize hd : MapCell.mk .map key element _ (.ofList last.1) false = d
  have hpair : (Container.map d).sample = firstTwo built.1 := sample_eq_firstTwo (by subst hd; rfl)
  have hext := extends_allocate last.2 (.map d)
  refine ⟨hgrow.trans hext, ?_⟩
  have hunfolds : (last.2.allocateValue (.map d)).2.Unfolds (last.2.allocateValue (.map d)).1
      (map d.key d.element (firstTwo (normalizeAll sample))
        (OrderedMap.ofList (normalizeEntries entries)).toList) := by
    refine .map (find?_allocate_self _ _) (by rw [← hd]) ?_ ?_ ?_
    · rw [hpair]
      exact (forall₂_firstTwo hsamples).imp fun _ _ h => h.of_extends hext
    · rw [← hd]
      exact hkeys
    · rw [← hd] at hext ⊢
      exact hvalues.imp fun _ _ h => h.of_extends hext
  rwa [← hd] at hunfolds ⊢

theorem yields (tree : Archived) : tree.Yields := by
  induction tree using ind with
  | void => exact fun t => ⟨.refl t, .void⟩
  | bool b => exact fun t => ⟨.refl t, .bool b⟩
  | int n => exact fun t => ⟨.refl t, .int n⟩
  | float x => exact fun t => ⟨.refl t, .float x⟩
  | string text => exact fun t => ⟨.refl t, .string text⟩
  | list element sample items ihsample ihitems => exact yields_list ihsample ihitems
  | map key element sample entries ihsample ihentries => exact yields_map ihsample ihentries

end Thawing

-- A thawed value is written as the normal form of the tree that it was built from.
theorem emission_thaw {tree : Archived} (h : tree.WordSized) (s : Store) :
    (tree.thaw s).2.emission (tree.thaw s).1 = { bytes := tree.normalize.encode } := by
  obtain ⟨_, hstorable⟩ := builds_storable h s
  obtain ⟨found, hfreeze, hunfolds⟩ := exists_freeze hstorable.resident hstorable.archivable
  obtain rfl := hunfolds.eq (yields tree s).2
  rw [emission, hfreeze]

theorem wordSized_normalize {tree : Archived} (h : tree.WordSized) : tree.normalize.WordSized :=
  (yields tree .empty).2.wordSized (builds_storable h .empty).2.resident

theorem encode_injective {tree other : Archived} (h : tree.WordSized) (hother : other.WordSized)
    (heq : tree.encode = other.encode) : tree = other := by
  have hread := reads_decode h []
  rw [heq, reads_decode hother []] at hread
  cases hread
  rfl

-- What is read can be written again, as no more bytes, and these stand for the same value from then
-- on. They are the bytes that were read when nothing was dropped.
theorem decode_normalizes {bytes rest : Bytes} {tree : Archived}
    (h : decode bytes = .ok (tree, rest)) :
    ∃ front again second, bytes = front ++ rest ∧
      (∀ s, (tree.thaw s).2.emission (tree.thaw s).1 = { bytes := again }) ∧
      again.length ≤ front.length ∧
      (∀ more, decode (again ++ more) = .ok (second, more)) ∧
      (∀ s t, Alike (tree.thaw s).2 (second.thaw t).2 (tree.thaw s).1 (second.thaw t).1) ∧
      (∀ t, (second.thaw t).2.emission (second.thaw t).1 = { bytes := again }) ∧
      (again = front ↔ ∀ node ∈ tree.nodes, node.Regular) ∧
      (∀ node ∈ tree.nodes, ∃ before own after, front = before ++ own ++ after ∧
        4 ≤ own.length ∧ decode (own ++ (after ++ rest)) = .ok (node, after ++ rest)) ∧
      tree.nodes.length ≤ front.length / 4 := by
  obtain ⟨front, rfl, hsized, rfl⟩ := accepts_encode bytes tree rest h
  have hnormal := wordSized_normalize hsized
  have hcount := length_nodes_le tree
  refine ⟨tree.encode, tree.normalize.encode, tree.normalize, rfl, emission_thaw hsized,
    length_encode_normalize_le tree, reads_decode hnormal, fun s t => ?_, fun t => ?_, ?_,
    exists_read_of_mem_nodes hsized rest, by omega⟩
  · exact (builds_thaw (yields tree s).2 t).2
  · rw [emission_thaw hnormal, normalize_normalize]
  · rw [← normalize_eq_self_iff]
    exact ⟨encode_injective hnormal hsized, congrArg encode⟩

-- A map with one sample that repeats a key.
def unevenMap : Archived := .map .string .int [.void] [("k", .int 1), ("k", .int 2)]

theorem decode_normalizes_uneven :
    decode (unevenMap.encode ++ [42]) = .ok (unevenMap, [42]) ∧
      ∃ front again second, unevenMap.encode ++ [42] = front ++ [42] ∧ again ≠ front ∧
        again.length ≤ front.length ∧ (∀ more, decode (again ++ more) = .ok (second, more)) ∧
        ∀ t, (second.thaw t).2.emission (second.thaw t).1 = { bytes := again } := by
  have hsized : unevenMap.WordSized := by
    refine .map (by decide) (by decide) (List.forall_mem_singleton.mpr .void) (by decide) ?_
    simp only [List.forall_mem_cons]
    exact ⟨.int 1, .int 2, List.forall_mem_nil _⟩
  have hread := reads_decode hsized [42]
  obtain ⟨front, again, second, hbytes, _, hle, hreads, _, hstable, hiff, _⟩ :=
    decode_normalizes hread
  refine ⟨hread, front, again, second, hbytes, fun heq => ?_, hle, hreads, hstable⟩
  have hroot : ([Archived.void].length = 0 ∨ [Archived.void].length = 2) ∧ ["k", "k"].Nodup :=
    hiff.mp heq unevenMap (mem_nodes_self _)
  exact absurd hroot.1 (by decide)

end Archived

end Conductor
