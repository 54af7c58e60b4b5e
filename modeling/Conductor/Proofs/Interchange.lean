import Conductor.Proofs.Marshalling
import Conductor.Proofs.Store.Symmetry

namespace Conductor

namespace Store

variable {s : Store} {v w : Value}

theorem tag_compatible_of_compatible (h : s.compatible v w = true) :
    (s.tag v).compatible (s.tag w) = true := by
  have hagree := compatible_iff_reached.mp h _ .refl
  cases v <;> cases w <;>
    simp_all [Agree, tag, Tag.compatible, Tag.isNumeric, Value.isNumeric]

-- Comparing a scalar to a value is comparing their types.
theorem compatible_iff_of_scalar (hscalar : v.isContainer = false) :
    s.compatible v w = true ↔
      w.isContainer = false ∧ (s.tag v).compatible (s.tag w) = true := by
  cases v <;> cases w <;> simp_all [compatible, compatibleWithin, Value.isContainer]

end Store

namespace HostType

-- The type with a double for every integer. Types that are the same up to the kinds of numbers
-- widen to the same type.
def widened : HostType → HostType
  | int => float
  | list t => list t.widened
  | map t => map t.widened
  | t => t

-- The type is built from scalars alone.
def Plain : HostType → Prop
  | value => False
  | list t | map t => t.Plain
  | _ => True

-- No collection in the data is empty, at any depth.
def Full : (t : HostType) → t.Data → Prop
  | list t, items => items ≠ [] ∧ ∀ item ∈ items, t.Full item
  | map t, entries => entries.toList ≠ [] ∧ ∀ entry ∈ entries.toList, t.Full entry.2
  | _, _ => True

-- Whether data of the type come in a container.
def isCollection : HostType → Bool
  | list _ | map _ => true
  | _ => false

variable {s s₁ s₂ : Store} {t u : HostType} {v w : Value}

theorem tag_compatible_of_widened (h : t.widened = u.widened) : t.tag.compatible u.tag = true := by
  cases t <;> cases u <;> simp_all [widened, tag, Tag.compatible, Tag.isNumeric]

-- The tag of a scalar type says all about it, up to the kinds of numbers.
theorem widened_eq_iff_of_scalar (ht : t.Plain) (hu : u.Plain) (hscalar : t.isCollection = false) :
    t.widened = u.widened ↔ u.isCollection = false ∧ t.tag.compatible u.tag = true := by
  cases t <;> cases u <;>
    simp_all [Plain, isCollection, widened, tag, Tag.compatible, Tag.isNumeric]

theorem isContainer_of_stands {data : t.Data} (ht : t.Plain) (h : Stands s t data v) :
    v.isContainer = t.isCollection := by
  cases t with
  | value => exact False.elim ht
  | list t | map t =>
    obtain ⟨a, values, rfl, -⟩ := h
    rfl
  | _ =>
    cases h
    rfl

theorem tag_of_stands {data : t.Data} (ht : t.Plain) (h : Stands s t data v) : s.tag v = t.tag := by
  cases t with
  | value => exact False.elim ht
  | list t | map t =>
    obtain ⟨a, values, rfl, hfind, -⟩ := h
    rw [Store.tag, Store.fetch_of_find? hfind]
    rfl
  | _ =>
    cases h
    rfl

-- Where one of the two is a scalar, comparing the values is comparing the types.
theorem compatible_iff_widened_of_scalar {x : t.Data} {y : u.Data} (ht : t.Plain) (hu : u.Plain)
    (hscalar : t.isCollection = false) (hv : Stands s t x v) (hw : Stands s u y w) :
    s.compatible v w = true ↔ t.widened = u.widened := by
  rw [Store.compatible_iff_of_scalar ((isContainer_of_stands ht hv).trans hscalar),
    widened_eq_iff_of_scalar ht hu hscalar, isContainer_of_stands hu hw, tag_of_stands ht hv,
    tag_of_stands hu hw]

theorem tag_compatible_of_stands {x : t.Data} {y : u.Data} (ht : t.Plain) (hu : u.Plain)
    (hv : Stands s t x v) (hw : Stands s u y w) (h : s.compatible v w = true) :
    t.tag.compatible u.tag = true := by
  rw [← tag_of_stands ht hv, ← tag_of_stands hu hw]
  exact Store.tag_compatible_of_compatible h

section Collections

variable {a b : Address} {values others : List Value} {entries rest : OrderedMap String Value}

-- Two lists without samples are compared by their declared types and their first elements.
theorem compatible_lists_iff
    (ha : s.find? a = some (.list { element := t.tag, items := values }))
    (hb : s.find? b = some (.list { element := u.tag, items := others })) :
    s.compatible (.container a) (.container b) = true ↔
      t.tag.compatible u.tag = true ∧
        ∀ v ∈ values.head?, ∀ w ∈ others.head?, s.compatible v w = true := by
  rw [Store.compatible_container_iff]
  simp only [Store.Agree, Store.fetch_of_find? ha, Store.fetch_of_find? hb]
  cases values <;> cases others <;>
    simp [Container.object, Container.key, Container.element, Container.representative,
      Container.sample, Tag.compatible]

theorem compatible_maps_iff
    (ha : s.find? a = some (.map { MapCell.new .map .string t.tag with entries }))
    (hb : s.find? b = some (.map { MapCell.new .map .string u.tag with entries := rest })) :
    s.compatible (.container a) (.container b) = true ↔
      t.tag.compatible u.tag = true ∧
        ∀ v ∈ entries.values.head?, ∀ w ∈ rest.values.head?, s.compatible v w = true := by
  have hkeys (key other : String) : s.compatible (.string key) (.string other) = true :=
    (Store.compatible_iff_of_scalar rfl).mpr ⟨rfl, Tag.compatible_self _⟩
  rw [Store.compatible_container_iff]
  simp only [Store.Agree, Store.fetch_of_find? ha, Store.fetch_of_find? hb]
  obtain ⟨entries, _⟩ := entries
  obtain ⟨rest, _⟩ := rest
  cases entries <;> cases rest <;>
    simp [Container.object, Container.key, Container.element, Container.representative,
      Container.sample, Tag.compatible, MapCell.new, OrderedMap.values, hkeys]

-- Where whatever stands for data of the two types is compatible, the first values of two
-- collections are.
theorem compatible_heads {items : List t.Data} {rest : List u.Data}
    (ih : ∀ (x : t.Data) (y : u.Data) (v w : Value),
      Stands s t x v → Stands s u y w → s.compatible v w = true)
    (hvalues : List.Forall₂ (Stands s t) items values)
    (hothers : List.Forall₂ (Stands s u) rest others) :
    ∀ v ∈ values.head?, ∀ w ∈ others.head?, s.compatible v w = true := by
  intro v hv w hw
  cases hvalues with
  | nil => cases hv
  | cons hx _ =>
    cases hothers with
    | nil => cases hw
    | cons hy _ =>
      cases hv
      cases hw
      exact ih _ _ _ _ hx hy

end Collections

theorem compatible_of_widened {x : t.Data} {y : u.Data} (ht : t.Plain) (hu : u.Plain)
    (h : t.widened = u.widened) (hv : Stands s t x v) (hw : Stands s u y w) :
    s.compatible v w = true := by
  induction t generalizing u v w with
  | list t ih =>
    cases u with
    | list u =>
      obtain ⟨a, values, rfl, hfind, hall⟩ := hv
      obtain ⟨b, others, rfl, hother, hrest⟩ := hw
      have hinner : t.widened = u.widened := HostType.list.inj h
      refine (compatible_lists_iff hfind hother).mpr ⟨tag_compatible_of_widened hinner, ?_⟩
      exact compatible_heads (fun _ _ _ _ => ih (u := u) ht hu hinner) hall hrest
    | _ => cases h
  | map t ih =>
    cases u with
    | map u =>
      obtain ⟨a, entries, rfl, hfind, hall⟩ := hv
      obtain ⟨b, rest, rfl, hother, hrest⟩ := hw
      have hinner : t.widened = u.widened := HostType.map.inj h
      refine (compatible_maps_iff hfind hother).mpr ⟨tag_compatible_of_widened hinner, ?_⟩
      exact compatible_heads (fun _ _ _ _ => ih (u := u) ht hu hinner)
        (forall₂_entries_iff.mp hall).2 (forall₂_entries_iff.mp hrest).2
    | _ => cases h
  | _ => exact (compatible_iff_widened_of_scalar ht hu rfl hv hw).mpr h

theorem exists_head {items : List t.Data} {values : List Value} (hne : items ≠ [])
    (h : List.Forall₂ (Stands s t) items values) :
    ∃ x ∈ items, ∃ v ∈ values.head?, Stands s t x v := by
  cases h with
  | nil => exact absurd rfl hne
  | cons hx _ => exact ⟨_, List.mem_cons_self, _, rfl, hx⟩

theorem exists_head_of_entries {data : OrderedMap String t.Data} {entries : OrderedMap String Value}
    (hne : data.toList ≠ [])
    (h : List.Forall₂ (fun e f => e.1 = f.1 ∧ Stands s t e.2 f.2) data.toList entries.toList) :
    ∃ entry ∈ data.toList, ∃ v ∈ entries.values.head?, Stands s t entry.2 v := by
  have hvalues : data.toList.map Prod.snd ≠ [] := mt List.map_eq_nil_iff.mp hne
  obtain ⟨_, hmem, v, hv, hstands⟩ := exists_head hvalues (forall₂_entries_iff.mp h).2
  obtain ⟨entry, hentry, rfl⟩ := List.mem_map.mp hmem
  exact ⟨entry, hentry, v, hv, hstands⟩

theorem widened_of_compatible {x : t.Data} {y : u.Data} (ht : t.Plain) (hu : u.Plain)
    (hx : t.Full x) (hy : u.Full y) (hv : Stands s t x v) (hw : Stands s u y w)
    (h : s.compatible v w = true) : t.widened = u.widened := by
  induction t generalizing u v w with
  | list t ih =>
    have htags := tag_compatible_of_stands ht hu hv hw h
    cases u with
    | list u =>
      obtain ⟨a, values, rfl, hfind, hall⟩ := hv
      obtain ⟨b, others, rfl, hother, hrest⟩ := hw
      obtain ⟨x, hmem, v, hvalue, hv⟩ := exists_head hx.1 hall
      obtain ⟨y, hmemOther, w, hvalueOther, hw⟩ := exists_head hy.1 hrest
      have hinner := ((compatible_lists_iff hfind hother).mp h).2 v hvalue w hvalueOther
      exact congrArg list (ih (u := u) ht hu (hx.2 x hmem) (hy.2 y hmemOther) hv hw hinner)
    | _ => cases htags
  | map t ih =>
    have htags := tag_compatible_of_stands ht hu hv hw h
    cases u with
    | map u =>
      obtain ⟨a, entries, rfl, hfind, hall⟩ := hv
      obtain ⟨b, rest, rfl, hother, hrest⟩ := hw
      obtain ⟨entry, hmem, v, hvalue, hv⟩ := exists_head_of_entries hx.1 hall
      obtain ⟨other, hmemOther, w, hvalueOther, hw⟩ := exists_head_of_entries hy.1 hrest
      have hinner := ((compatible_maps_iff hfind hother).mp h).2 v hvalue w hvalueOther
      exact congrArg map
        (ih (u := u) ht hu (hx.2 entry hmem) (hy.2 other hmemOther) hv hw hinner)
    | _ => cases htags
  | _ => exact (compatible_iff_widened_of_scalar ht hu rfl hv hw).mp h

-- Two pieces of data turned into values one after the other. The values are compatible if the types
-- are the same up to the kinds of numbers, with empty collections and whatever the order of the
-- maps. Where no collection is empty, they are compatible only then.
theorem compatible_toValue (ht : t.Plain) (hu : u.Plain) (x : t.Data) (y : u.Data)
    (hx : t.toValue s x = (v, s₁)) (hy : u.toValue s₁ y = (w, s₂)) :
    (t.widened = u.widened → s₂.compatible v w = true) ∧
      (t.Full x → u.Full y → s₂.compatible v w = true → t.widened = u.widened) := by
  obtain ⟨-, hv, hw⟩ :=
    (builds_toValue t x).followed (persistent_stands t) (builds_toValue u y) s
  rw [hx] at hv hw
  rw [hy] at hv hw
  exact ⟨fun h => compatible_of_widened ht hu h hv hw,
    fun hfull hfullOther h => widened_of_compatible ht hu hfull hfullOther hv hw h⟩

-- A list with an empty map of integers in it and an empty list of maps of doubles are compatible. A
-- list of an integer and a list of a text are not.
theorem compatible_toValue_samples :
    (∃ v s₁ w s₂, (list (map int)).toValue .empty [.empty] = (v, s₁) ∧
      (list (map float)).toValue s₁ [] = (w, s₂) ∧ s₂.compatible v w = true) ∧
    ∃ v s₁ w s₂, (list int).toValue .empty [1] = (v, s₁) ∧
      (list string).toValue s₁ ["a"] = (w, s₂) ∧ s₂.compatible v w = false := by
  refine ⟨⟨_, _, _, _, rfl, rfl, ?_⟩, ⟨_, _, _, _, rfl, rfl, ?_⟩⟩
  · exact (compatible_toValue (s := .empty) (t := list (map int)) (u := list (map float)) trivial
      trivial [.empty] [] rfl rfl).1 rfl
  · refine Bool.eq_false_iff.mpr fun h => ?_
    have hfull : (list int).Full [1] := ⟨List.cons_ne_nil _ _, fun _ _ => trivial⟩
    have hother : (list string).Full ["a"] := ⟨List.cons_ne_nil _ _, fun _ _ => trivial⟩
    cases (compatible_toValue (s := .empty) (t := list int) (u := list string) trivial trivial [1]
      ["a"] rfl rfl).2 hfull hother h

end HostType

end Conductor
