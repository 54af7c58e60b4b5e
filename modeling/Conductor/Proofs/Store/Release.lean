import Conductor.Proofs.Store.Alike
import Conductor.Proofs.Store.Reachability
import Conductor.Store.Release

namespace Conductor.Store

variable {s : Store} {held : List Value}

theorem mem_referenced_iff {a : Address} :
    a ∈ s.referenced held ↔ .container a ∈ held ∨ ∃ b, s.Refers b a := by
  have hcells : (a ∈ s.cells.toList.flatMap fun cell => (cell.map Container.references).getD []) ↔
      ∃ b, s.Refers b a := by
    rw [List.mem_flatMap]
    constructor
    · rintro ⟨cell, hcell, ha⟩
      obtain ⟨i, hi, rfl⟩ := List.getElem_of_mem hcell
      have hsize : i < s.cells.size := hi
      cases hcase : s.cells.toList[i] with
      | none =>
        rw [hcase] at ha
        cases ha
      | some c =>
        rw [hcase] at ha
        have hfind : s.find? ⟨i⟩ = some c := by simpa [find?, hsize] using hcase
        exact ⟨⟨i⟩, refers_of_find? hfind ha⟩
    · rintro ⟨b, hrefers⟩
      obtain ⟨c, hfind, ha⟩ := exists_find?_of_refers hrefers
      have hsize := index_lt_of_find? hfind
      have hcell : s.cells[b.index] = some c := by simpa [find?, hsize] using hfind
      exact ⟨some c, by simp [← hcell], ha⟩
  rw [referenced, List.mem_append, Value.mem_filterMap_address?, hcells]

theorem size_releaseOnce : (s.releaseOnce held).cells.size = s.cells.size := by simp [releaseOnce]

theorem find?_releaseOnce (a : Address) :
    (s.releaseOnce held).find? a = if a ∈ s.referenced held then s.find? a else none := by
  have hcontains : (Std.HashSet.ofList (s.referenced held)).contains a =
      decide (a ∈ s.referenced held) := by
    rw [Std.HashSet.contains_ofList, List.contains_eq_mem]
  by_cases ha : a ∈ s.referenced held
  · rw [if_pos ha]
    simp only [find?, releaseOnce, Array.getElem?_mapIdx, hcontains, ha, decide_true, ite_true]
    cases s.cells[a.index]? <;> rfl
  · rw [if_neg ha]
    simp only [find?, releaseOnce, Array.getElem?_mapIdx, hcontains, ha, decide_false]
    cases s.cells[a.index]? <;> rfl

theorem ext_find? {t : Store} (hsize : s.cells.size = t.cells.size)
    (h : ∀ a, s.find? a = t.find? a) : s = t := by
  have hcells : s.cells = t.cells := by
    apply Array.ext hsize
    intro i hi hj
    simpa [find?, hi, hj] using h ⟨i⟩
  cases s
  cases t
  exact congrArg Store.mk hcells

theorem living_eq : s.living = (List.range s.cells.size).countP fun i => (s.find? ⟨i⟩).isSome := by
  have hcells : s.cells.toList = (List.range s.cells.size).map fun i => s.find? ⟨i⟩ := by
    apply List.ext_getElem (by simp)
    intro i hi _
    have hsize : i < s.cells.size := hi
    simp [find?, hsize]
  rw [living, ← Array.countP_toList, hcells, List.countP_map]
  rfl

-- Everything that lives is held by something.
def Settled (s : Store) (held : List Value) : Prop :=
  ∀ a c, s.find? a = some c → .container a ∈ held ∨ ∃ b, s.Refers b a

-- Where what the held values do not reach only holds on to older containers there is nothing that
-- they do not reach: the youngest of it would be held by nothing.
theorem Settled.reached (h : s.Settled held)
    (hdown : ∀ a b, ¬s.Reached held a → s.Refers a b → b.index < a.index) {a : Address}
    (hlives : s.Lives a) : s.Reached held a := by
  obtain ⟨c, hfind⟩ := lives_iff.mp hlives
  rcases h a c hfind with hroot | ⟨b, hrefers⟩
  · exact reached_of_mem hroot
  · by_cases hb : s.Reached held b
    · exact hb.of_refers hrefers
    · have hyounger := hdown b a hb hrefers
      have hsize := index_lt_of_refers hrefers
      obtain ⟨d, hd, _⟩ := exists_find?_of_refers hrefers
      exact absurd (h.reached hdown (lives_iff.mpr ⟨d, hd⟩)) hb
termination_by s.cells.size - a.index

theorem releaseOnce_of_settled (h : s.Settled held) : s.releaseOnce held = s := by
  refine ext_find? size_releaseOnce fun a => ?_
  rw [find?_releaseOnce]
  by_cases ha : a ∈ s.referenced held
  · rw [if_pos ha]
  · rw [if_neg ha]
    cases hfind : s.find? a with
    | none => rfl
    | some c => exact absurd (mem_referenced_iff.mpr (h a c hfind)) ha

theorem living_releaseOnce_lt (h : ¬s.Settled held) : (s.releaseOnce held).living < s.living := by
  simp only [Settled, not_forall] at h
  obtain ⟨a, c, hfind, hloose⟩ := h
  have ha : a ∉ s.referenced held := fun ha => hloose (mem_referenced_iff.mp ha)
  rw [living_eq, living_eq, size_releaseOnce]
  apply countP_lt_countP (a := a.index)
  · intro i hi
    rw [find?_releaseOnce] at hi
    split at hi
    · exact hi
    · cases hi
  · exact List.mem_range.mpr (index_lt_of_find? hfind)
  · simp [find?_releaseOnce, ha]
  · simp [hfind]

theorem release_of_settled (h : s.Settled held) : s.release held = s := by
  rw [release]
  simp [releaseOnce_of_settled h]

theorem settled_release (s : Store) (held : List Value) : (s.release held).Settled held := by
  induction s using release.induct held with
  | case1 s after hless ih =>
    rw [release, dif_pos hless]
    exact ih
  | case2 s after hless =>
    rw [release, dif_neg hless]
    exact Classical.byContradiction fun h => hless (living_releaseOnce_lt h)

theorem size_release (s : Store) (held : List Value) :
    (s.release held).cells.size = s.cells.size := by
  induction s using release.induct held with
  | case1 s after hless ih =>
    rw [release, dif_pos hless, ih, size_releaseOnce]
  | case2 s after hless => rw [release, dif_neg hless]

theorem release_extends (s : Store) (held : List Value) : (s.release held).Extends s := by
  induction s using release.induct held with
  | case1 s after hless ih =>
    rw [release, dif_pos hless]
    refine ih.trans fun a c hfind => ?_
    rw [find?_releaseOnce] at hfind
    split at hfind
    · exact hfind
    · cases hfind
  | case2 s after hless =>
    rw [release, dif_neg hless]
    exact .refl s

-- Containers of which each is held, by a value or by another of them.
def Supported (s : Store) (held : List Value) (P : Address → Prop) : Prop :=
  ∀ a, P a → .container a ∈ held ∨ ∃ b, P b ∧ s.Refers b a

theorem find?_release_of_supported {P : Address → Prop} (h : s.Supported held P) {a : Address}
    (ha : P a) : (s.release held).find? a = s.find? a := by
  induction s using release.induct held with
  | case1 s after hless ih =>
    have hkept : ∀ b, P b → after.find? b = s.find? b := by
      intro b hb
      have hreferenced : b ∈ s.referenced held :=
        mem_referenced_iff.mpr ((h b hb).imp_right fun ⟨c, _, hrefers⟩ => ⟨c, hrefers⟩)
      rw [find?_releaseOnce, if_pos hreferenced]
    have hafter : after.Supported held P := by
      intro b hb
      refine (h b hb).imp_right fun ⟨c, hc, hrefers⟩ => ⟨c, hc, ?_⟩
      rw [Refers, fetch, hkept c hc]
      exact hrefers
    rw [release, dif_pos hless, ih hafter, hkept a ha]
  | case2 s after hless => rw [release, dif_neg hless]

theorem find?_release_of_held {a : Address} (h : .container a ∈ held) :
    (s.release held).find? a = s.find? a :=
  find?_release_of_supported (P := fun b => .container b ∈ held) (fun _ hb => .inl hb) h

theorem find?_release_of_reached {roots : List Value} {a : Address} (h : s.Reached roots a)
    (hheld : ∀ b, .container b ∈ roots → .container b ∈ held) :
    (s.release held).find? a = s.find? a := by
  refine find?_release_of_supported (P := fun b => s.Reached roots b) (fun b hb => ?_) h
  exact hb.root_or_refers.imp_left (hheld b)

theorem Extends.refers {t : Store} (h : s.Extends t) {a b : Address} (hrefers : s.Refers a b) :
    t.Refers a b := by
  obtain ⟨c, hfind, hb⟩ := exists_find?_of_refers hrefers
  exact refers_of_find? (h a c hfind) hb

-- A value holds the container, or a container that stays does.
def Stays (s : Store) (held : List Value) (a : Address) : Prop := ∃ P, s.Supported held P ∧ P a

theorem find?_release_of_stays {a : Address} (h : s.Stays held a) :
    (s.release held).find? a = s.find? a := by
  obtain ⟨P, hsupported, ha⟩ := h
  exact find?_release_of_supported hsupported ha

theorem Settled.stays (h : s.Settled held) {a : Address} (hlives : s.Lives a) :
    s.Stays held a := by
  refine ⟨s.Lives, fun b hb => ?_, hlives⟩
  obtain ⟨c, hfind⟩ := lives_iff.mp hb
  refine (h b c hfind).imp_right fun ⟨x, hrefers⟩ => ?_
  obtain ⟨d, hx, _⟩ := exists_find?_of_refers hrefers
  exact ⟨x, lives_iff.mpr ⟨d, hx⟩, hrefers⟩

theorem Extends.stays {t : Store} (h : s.Extends t) {a : Address} (hstays : s.Stays held a) :
    t.Stays held a := by
  obtain ⟨P, hsupported, ha⟩ := hstays
  exact ⟨P, fun b hb => (hsupported b hb).imp_right fun ⟨x, hx, hrefers⟩ =>
    ⟨x, hx, h.refers hrefers⟩, ha⟩

-- A release leaves what stays, and nothing else.
theorem lives_release_iff {a : Address} :
    (s.release held).Lives a ↔ s.Lives a ∧ s.Stays held a := by
  constructor
  · intro hlives
    have hstays := (release_extends s held).stays ((settled_release s held).stays hlives)
    rw [Lives, find?_release_of_stays hstays] at hlives
    exact ⟨hlives, hstays⟩
  · rintro ⟨hlives, hstays⟩
    rw [Lives, find?_release_of_stays hstays]
    exact hlives

end Conductor.Store
