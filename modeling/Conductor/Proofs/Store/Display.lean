import Conductor.Proofs.Archive.Unfolding
import Conductor.Proofs.Store.Sketch
import Conductor.Proofs.Store.Compatibility
import Conductor.Proofs.Text.Visible

namespace Conductor

open Text

-- The keys of a container and the texts among its contents.
def Container.texts (c : Container) : List String := c.keys ++ c.contents.filterMap Value.asString?

theorem Container.mem_texts_iff {c : Container} {text : String} :
    text ∈ c.texts ↔ text ∈ c.keys ∨ .string text ∈ c.contents := by
  have hcontents : text ∈ c.contents.filterMap Value.asString? ↔ .string text ∈ c.contents := by
    rw [List.mem_filterMap]
    constructor
    · rintro ⟨v, hv, htext⟩
      cases v <;> simp only [Value.asString?, Option.some.injEq, reduceCtorEq] at htext
      exact htext ▸ hv
    · exact fun h => ⟨.string text, h, rfl⟩
  rw [texts, List.mem_append, hcontents]

namespace Store

variable {s : Store} {path : List Address} {a b : Address} {v : Value} {text : String} {c : Char}

-- The text is the value, or it is in a container that the value meets.
def Mentions (s : Store) (v : Value) (text : String) : Prop :=
  v = .string text ∨ ∃ a, s.Meets Container.contents v a ∧ text ∈ (s.fetch a).texts

theorem mentions_container_iff : s.Mentions (.container a) text ↔
    text ∈ (s.fetch a).keys ∨ ∃ v ∈ (s.fetch a).contents, s.Mentions v text := by
  constructor
  · rintro (h | ⟨b, hmeets, htext⟩)
    · cases h
    obtain rfl | ⟨v, hv, hmeets⟩ := meets_container_iff.mp hmeets
    · exact (Container.mem_texts_iff.mp htext).imp_right fun h => ⟨_, h, .inl rfl⟩
    · exact .inr ⟨v, hv, .inr ⟨b, hmeets, htext⟩⟩
  · rintro (hkey | ⟨v, hv, rfl | ⟨b, hmeets, htext⟩⟩)
    · exact .inr ⟨a, meets_self s _ a, Container.mem_texts_iff.mpr (.inl hkey)⟩
    · exact .inr ⟨a, meets_self s _ a, Container.mem_texts_iff.mpr (.inr hv)⟩
    · exact .inr ⟨b, meets_container_iff.mpr (.inr ⟨v, hv, hmeets⟩), htext⟩

theorem index_lt_of_mem_texts (h : text ∈ (s.fetch a).texts) : a.index < s.cells.size := by
  refine Nat.lt_of_not_le fun hsize => ?_
  rw [fetch_of_size_le hsize] at h
  cases h

-- What is printed around the keys and the contents of a container is visible.
theorem mem_displayWithin_iff (henter : s.Enterable path a) (hc : isVisible c = false) :
    c ∈ (s.displayWithin path (.container a)).toList ↔
      (∃ key ∈ (s.fetch a).keys, c ∈ key.toList) ∨
        ∃ v ∈ (s.fetch a).contents, c ∈ (s.displayWithin (a :: path) v).toList := by
  rw [displayWithin, dif_pos henter]
  cases s.fetch a with
  | list cell =>
    rw [mem_row_iff (by decide) (by decide) (by decide) hc]
    simp [Container.keys, Container.contents]
  | map cell =>
    have hcolon : c ∉ " : ".toList := Visible.notMem (by decide) hc
    rw [mem_row_iff (by decide) (by decide) (by decide) hc]
    simp only [Container.keys, Container.contents, OrderedMap.keys, OrderedMap.values, List.mem_map,
      exists_exists_and_eq_and, String.toList_append, List.mem_append, hcolon, or_false,
      and_or_left, exists_or]

theorem visible_displayWithin (hv : v.isContainer = false) (htext : v.asString? = none) :
    Visible (s.displayWithin path v) := by
  cases v with
  | container a => cases hv
  | string text => cases htext
  | void =>
    rw [displayWithin]
    decide
  | bool b =>
    rw [displayWithin]
    cases b <;> decide
  | int n =>
    rw [displayWithin]
    exact visible_int _
  | float x =>
    rw [displayWithin]
    exact visible_double x

theorem displayWithin_string (s : Store) (path : List Address) (text : String) :
    s.displayWithin path (.string text) = text := by
  rw [displayWithin]

theorem exists_mentions_of_mem_displayWithin (hc : isVisible c = false)
    (h : c ∈ (s.displayWithin path v).toList) : ∃ text, s.Mentions v text ∧ c ∈ text.toList := by
  induction path, v using sketchWithin.induct s with
  | case1 path a henter ih =>
    obtain ⟨key, hkey, hmem⟩ | ⟨v, hv, hmem⟩ := (mem_displayWithin_iff henter hc).mp h
    · exact ⟨key, mentions_container_iff.mpr (.inl hkey), hmem⟩
    · obtain ⟨text, hmentions, htext⟩ := ih v hmem
      exact ⟨text, mentions_container_iff.mpr (.inr ⟨v, hv, hmentions⟩), htext⟩
  | case2 path a hstop =>
    -- A container that is not entered is printed as an ellipsis.
    have hlist : Visible "[...]" := by decide
    have hmap : Visible "\x7b...\x7d" := by decide
    have hvisible : Visible (s.fetch a).ellipsis := by
      cases s.fetch a with
      | list => exact hlist
      | map => exact hmap
    rw [displayWithin, dif_neg hstop] at h
    exact absurd h (hvisible.notMem hc)
  | case3 path v hscalar =>
    cases v with
    | container a => exact (hscalar a rfl).elim
    | string text => exact ⟨text, .inl rfl, by rwa [displayWithin_string] at h⟩
    | _ => exact absurd h ((visible_displayWithin rfl rfl).notMem hc)

-- Going on to what is inside, from containers off the path.
def GoesOff (s : Store) (path : List Address) (a b : Address) : Prop :=
  s.Leads Container.contents a b ∧ a ∉ path

-- The texts at the end of a way off the path are printed, for the way need not come back to where
-- it starts.
theorem mem_displayWithin_of_goesOff (hc : isVisible c = false)
    (hway : Relation.ReflTransGen (s.GoesOff path) a b) (hb : b ∉ path)
    (htext : text ∈ (s.fetch b).texts) (hmem : c ∈ text.toList) :
    c ∈ (s.displayWithin path (.container a)).toList := by
  induction hroom : s.room path using Nat.strong_induction_on generalizing path a with
  | h room ih =>
    have henter : s.Enterable path a := by
      obtain rfl | ⟨d, ⟨hleads, ha⟩, _⟩ := hway.cases_head
      · exact ⟨index_lt_of_mem_texts htext, hb⟩
      · exact ⟨index_lt_of_mem_children (List.mem_append_right _ hleads), ha⟩
    rw [mem_displayWithin_iff henter hc]
    by_cases hab : b = a
    · subst hab
      obtain hkey | hstring := Container.mem_texts_iff.mp htext
      · exact .inl ⟨text, hkey, hmem⟩
      · exact .inr ⟨.string text, hstring, by rwa [displayWithin_string]⟩
    · obtain ⟨d, ⟨hleads, _⟩, hrest⟩ := (start_or_step_avoiding hway).resolve_left hab
      have hoff : ∀ x y, s.GoesOff path x y ∧ x ≠ a → s.GoesOff (a :: path) x y := by
        rintro x y ⟨⟨hleads, hx⟩, hne⟩
        exact ⟨hleads, List.not_mem_cons_of_ne_of_not_mem hne hx⟩
      exact .inr ⟨.container d, hleads, ih _ (hroom ▸ room_cons_lt henter)
        (Relation.ReflTransGen.mono hoff _ _ hrest) (List.not_mem_cons_of_ne_of_not_mem hab hb) rfl⟩

-- What is not visible in a printed value is in a text that the value mentions, and all of that is
-- printed.
theorem mem_display_iff (hc : isVisible c = false) :
    c ∈ (s.display v).toList ↔ ∃ text, s.Mentions v text ∧ c ∈ text.toList := by
  constructor
  · exact exists_mentions_of_mem_displayWithin hc
  · rintro ⟨text, rfl | ⟨b, ⟨a, rfl, hway⟩, htext⟩, hmem⟩
    · rwa [display, displayWithin_string]
    · have hoff : ∀ x y, s.Leads Container.contents x y → s.GoesOff [] x y :=
        fun x y hleads => ⟨hleads, List.not_mem_nil⟩
      exact mem_displayWithin_of_goesOff hc (Relation.ReflTransGen.mono hoff _ _ hway)
        List.not_mem_nil htext hmem

end Store

end Conductor
