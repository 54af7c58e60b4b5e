import Conductor.Proofs.Store.Recursion
import Conductor.Store.Display

namespace Conductor

-- The text of a value in parts: scalars, ellipses, and lists and maps of parts.
inductive Sketch where
  | text (shown : String)
  | ellipsis (shown : String)
  | list (items : List Sketch)
  | map (keys : List String) (items : List Sketch)

namespace Sketch

mutual

def render : Sketch → String
  | .text shown | .ellipsis shown => shown
  | .list items => "[" ++ ", ".intercalate (renderAll items) ++ "]"
  | .map keys items =>
    "\x7b" ++ ", ".intercalate (keys.zipWith (fun key item => key ++ " : " ++ item)
      (renderAll items)) ++ "\x7d"

def renderAll : List Sketch → List String
  | [] => []
  | item :: rest => render item :: renderAll rest

end

theorem renderAll_eq_map (items : List Sketch) : renderAll items = items.map render := by
  induction items with
  | nil => rfl
  | cons item rest ih => rw [renderAll, ih, List.map_cons]

def items : Sketch → List Sketch
  | text _ | ellipsis _ => []
  | list items | map _ items => items

-- The part at a position, which numbers the items on the way.
def part? : List Nat → Sketch → Option Sketch
  | [], sketch => some sketch
  | i :: position, sketch => sketch.items[i]?.bind (part? position)

end Sketch

-- The sketch of a container by those of its contents.
def Container.sketch (items : List Sketch) : Container → Sketch
  | list _ => .list items
  | map cell => .map cell.entries.keys items

@[simp]
theorem Container.items_sketch (c : Container) (items : List Sketch) :
    (c.sketch items).items = items := by
  cases c <;> rfl

namespace Store

-- The sketch of a value inside the containers of a path.
def sketchWithin (s : Store) (path : List Address) : Value → Sketch
  | .container a =>
    if _h : s.Enterable path a then
      (s.fetch a).sketch ((s.fetch a).contents.map (s.sketchWithin (a :: path)))
    else .ellipsis (s.fetch a).ellipsis
  | v => .text (s.display v)
termination_by s.room path
decreasing_by exact room_cons_lt _h

def sketch (s : Store) (v : Value) : Sketch := s.sketchWithin [] v

-- What stands at a position of the contents of a value, and the containers around it from the
-- inside out.
def occurrence? (s : Store) (above : List Address) :
    List Nat → Value → Option (List Address × Value)
  | [], v => some (above, v)
  | i :: position, .container a =>
    (s.fetch a).contents[i]?.bind (s.occurrence? (a :: above) position)
  | _ :: _, _ => none

variable {s : Store} {path above : List Address} {position : List Nat} {v w : Value} {text : String}

theorem sketchWithin_of_scalar (hv : v.isContainer = false) :
    s.sketchWithin path v = .text (s.display v) := by
  rw [sketchWithin]
  rintro a rfl
  cases hv

theorem displayWithin_of_scalar (hv : v.isContainer = false) :
    s.displayWithin path v = s.display v := by
  cases v with
  | container a => cases hv
  | _ => rw [display, displayWithin, displayWithin]

-- A value is printed as its sketch is rendered.
theorem render_sketchWithin (s : Store) (path : List Address) (v : Value) :
    (s.sketchWithin path v).render = s.displayWithin path v := by
  induction path, v using sketchWithin.induct s with
  | case1 path a henter ih =>
    rw [sketchWithin, displayWithin, dif_pos henter, dif_pos henter]
    cases s.fetch a with
    | list cell =>
      simp only [Container.sketch, Container.contents, Sketch.render, Sketch.renderAll_eq_map,
        List.map_map]
      congr 3
      exact List.map_congr_left fun v _ => ih v
    | map cell =>
      simp only [Container.sketch, Container.contents, Sketch.render, Sketch.renderAll_eq_map,
        OrderedMap.keys, OrderedMap.values, List.map_map, List.zipWith_map, List.zipWith_self]
      congr 3
      exact List.map_congr_left fun entry _ => congrArg (entry.1 ++ " : " ++ ·) (ih entry.2)
  | case2 path a hstop =>
    rw [sketchWithin, displayWithin, dif_neg hstop, dif_neg hstop, Sketch.render]
  | case3 path v hscalar =>
    have hv : v.isContainer = false := by
      cases v with
      | container a => exact (hscalar a rfl).elim
      | _ => rfl
    rw [sketchWithin_of_scalar hv, displayWithin_of_scalar hv, Sketch.render]

theorem render_sketch (s : Store) (v : Value) : (s.sketch v).render = s.display v :=
  render_sketchWithin s [] v

-- Whatever is met on the way comes on top of the path.
theorem suffix_of_occurrence? (h : s.occurrence? path position v = some (above, w)) :
    path <:+ above := by
  induction position generalizing path v with
  | nil =>
    cases h
    exact List.suffix_refl _
  | cons i position ih =>
    cases v with
    | container a =>
      obtain ⟨x, _, hinside⟩ := Option.bind_eq_some_iff.mp h
      exact (List.suffix_cons a path).trans (ih hinside)
    | _ => cases h

theorem Held.of_occurrence (hheld : s.Held v)
    (h : s.occurrence? path position v = some (above, w)) : s.Held w := by
  induction position generalizing path v with
  | nil =>
    cases h
    exact hheld
  | cons i position ih =>
    cases v with
    | container a =>
      obtain ⟨x, hx, hinside⟩ := Option.bind_eq_some_iff.mp h
      exact ih (hheld.of_child (List.mem_append_right _ (List.mem_of_getElem? hx))) hinside
    | _ => cases h

-- The part at a position is the sketch of what occurs there, as long as nothing on the way to it is
-- inside itself.
theorem part?_sketchWithin (hheld : s.Held v) (hpath : path.Nodup) (position : List Nat) :
    (s.sketchWithin path v).part? position =
      ((s.occurrence? path position v).filter fun found => decide found.1.Nodup).map
        fun found => s.sketchWithin found.1 found.2 := by
  induction position generalizing path v with
  | nil => simp [Sketch.part?, occurrence?, hpath]
  | cons i position ih =>
    cases v with
    | container a =>
      rw [Sketch.part?, occurrence?, sketchWithin]
      by_cases hmem : a ∈ path
      · -- The container is on the way twice, and stays so further inside.
        have hstop : ¬s.Enterable path a := fun henter => henter.2 hmem
        rw [dif_neg hstop, Sketch.items, List.getElem?_nil, Option.bind_none, eq_comm,
          Option.map_eq_none_iff, Option.filter_eq_none_iff]
        simp only [decide_eq_true_eq]
        rintro ⟨above, w⟩ h hnodup
        obtain ⟨x, _, hinside⟩ := Option.bind_eq_some_iff.mp h
        have hcons := hnodup.sublist (suffix_of_occurrence? hinside).sublist
        exact (List.nodup_cons.mp hcons).1 hmem
      · have henter : s.Enterable path a := ⟨index_lt_of_find? hheld.find?_eq, hmem⟩
        rw [dif_pos henter, Container.items_sketch, List.getElem?_map]
        cases hx : (s.fetch a).contents[i]? with
        | none => rfl
        | some x =>
          exact ih (hheld.of_child (List.mem_append_right _ (List.mem_of_getElem? hx)))
            (List.nodup_cons.mpr ⟨hmem, hpath⟩)
    | _ =>
      rw [sketchWithin_of_scalar rfl]
      rfl

theorem sketchWithin_eq_ellipsis_iff (hheld : s.Held v) : s.sketchWithin path v = .ellipsis text ↔
    ∃ a ∈ path, v = .container a ∧ (s.fetch a).ellipsis = text := by
  cases v with
  | container a =>
    rw [sketchWithin]
    by_cases hmem : a ∈ path
    · have hstop : ¬s.Enterable path a := fun henter => henter.2 hmem
      simp [dif_neg hstop, hmem]
    · have henter : s.Enterable path a := ⟨index_lt_of_find? hheld.find?_eq, hmem⟩
      rw [dif_pos henter]
      refine iff_of_false ?_ ?_
      · cases s.fetch a <;> rintro ⟨⟩
      · rintro ⟨_, hb, ⟨⟩, _⟩
        exact hmem hb
  | _ =>
    rw [sketchWithin_of_scalar rfl]
    refine iff_of_false (by rintro ⟨⟩) ?_
    rintro ⟨_, _, ⟨⟩, _⟩

-- The ellipsis stands where a container occurs inside itself for the first time on the way.
theorem part?_eq_ellipsis_iff (hheld : s.Held v) :
    (s.sketch v).part? position = some (.ellipsis text) ↔
      ∃ above a, s.occurrence? [] position v = some (above, .container a) ∧ above.Nodup ∧
        a ∈ above ∧ (s.fetch a).ellipsis = text := by
  rw [sketch, part?_sketchWithin hheld List.nodup_nil, Option.map_eq_some_iff]
  constructor
  · rintro ⟨⟨above, w⟩, hfound, hsketch⟩
    obtain ⟨hfound, hnodup⟩ := Option.filter_eq_some_iff.mp hfound
    obtain ⟨a, hmem, rfl, htext⟩ :=
      (sketchWithin_eq_ellipsis_iff (hheld.of_occurrence hfound)).mp hsketch
    exact ⟨above, a, hfound, of_decide_eq_true hnodup, hmem, htext⟩
  · rintro ⟨above, a, hfound, hnodup, hmem, htext⟩
    refine ⟨_, Option.filter_eq_some_iff.mpr ⟨hfound, decide_eq_true hnodup⟩, ?_⟩
    exact (sketchWithin_eq_ellipsis_iff (hheld.of_occurrence hfound)).mpr ⟨a, hmem, rfl, htext⟩

end Store

end Conductor
