import Conductor.Proofs.Equality
import Conductor.Proofs.OrderedMap
import Conductor.Proofs.Store.Guards

namespace Conductor

namespace Store

open Recursion

-- Two values agree on the outside and hold related values: a list in the same places, a map under
-- the same keys.
inductive Matches (s : Store) (R : Value → Value → Prop) : Value → Value → Prop
  | scalar {v w : Value} (hv : v.isContainer = false) (h : v.equals w = true) : Matches s R v w
  | list {a b : Address} {c d : ListCell} (hc : s.fetch a = .list c) (hd : s.fetch b = .list d)
      (h : List.Forall₂ R c.items d.items) : Matches s R (.container a) (.container b)
  | map {a b : Address} {c d : MapCell} (hc : s.fetch a = .map c) (hd : s.fetch b = .map d)
      (h : ∀ key, Option.Rel R (c.entries.get? key) (d.entries.get? key)) :
      Matches s R (.container a) (.container b)

-- Some relation between the values relates none that do not match.
def StructurallyEqual (s : Store) (v w : Value) : Prop :=
  ∃ R : Value → Value → Prop, R v w ∧ ∀ x y, R x y → s.Matches R x y

variable {s : Store} {R : Value → Value → Prop} {v w : Value} {x y : UInt64}
  {digest : Bytes → UInt64}

-- The order of a sum of words does not count.
theorem sum_eq_of_perm {words others : List UInt64} (h : words.Perm others) :
    words.foldl (· + ·) 0 = others.foldl (· + ·) 0 :=
  h.foldl_eq' (fun x _ y _ z => by rw [UInt64.add_assoc, UInt64.add_comm x, UInt64.add_assoc]) 0

theorem mem_contents_of_get? {cell : MapCell} {key : String} (h : cell.entries.get? key = some v) :
    v ∈ (Container.map cell).contents :=
  List.mem_map_of_mem (OrderedMap.get?_eq_some_iff.mp h)

theorem isContainer_of_equals (hv : v.isContainer = false) (h : v.equals w = true) :
    w.isContainer = false := by
  cases w with
  | container b =>
    cases v with
    | container => cases hv
    | _ => cases h
  | _ => rfl

-- What is related comes to the same word.
theorem Plainly.hash_eq (hR : ∀ x y, R x y → s.Matches R x y)
    (hx : s.Plainly (hashing digest) v x) (hy : s.Plainly (hashing digest) w y) (h : R v w) :
    x = y := by
  induction hx generalizing w y with
  | scalar hv =>
    cases hR _ _ h with
    | scalar _ hequals =>
      cases hy with
      | scalar => exact hashWithin_of_equals digest empty [] hequals
      | container => cases isContainer_of_equals hv hequals
    | list => cases hv
    | map => cases hv
  | @container a results hresults ih =>
    cases hR _ _ h with
    | scalar hv => cases hv
    | @list _ b c d hc hd hitems =>
      cases hy with
      | scalar hw => cases hw
      | @container _ others hothers =>
        rw [hc] at hresults ih ⊢
        rw [hd] at hothers ⊢
        have hsame : List.Forall₂ (fun v w => wordBytes (results v) = wordBytes (others w))
            c.items d.items :=
          forall₂_imp_of_mem hitems fun v hv w hw hvw =>
            congrArg wordBytes (ih v hv (hothers w hw) hvw)
        rw [← List.forall₂_map_right_iff, ← List.forall₂_map_left_iff,
          List.forall₂_eq_eq_eq] at hsame
        exact congrArg (fun words => digest (4 :: words.flatten)) hsame
    | @map _ b c d hc hd hentries =>
      cases hy with
      | scalar hw => cases hw
      | @container _ others hothers =>
        rw [hc] at hresults ih ⊢
        rw [hd] at hothers ⊢
        have hperm := OrderedMap.map_toList_perm_of_rel
          (f := fun key v => digest (stringPreimage key ++ wordBytes (results v)))
          (g := fun key w => digest (stringPreimage key ++ wordBytes (others w))) hentries
          fun key v hv w hw hvw => ?_
        · exact congrArg (fun word => digest (5 :: wordBytes word)) (sum_eq_of_perm hperm)
        · rw [ih v (mem_contents_of_get? hv) (hothers w (mem_contents_of_get? hw)) hvw]

-- Structurally equal values hash alike, whatever the types and samples of their containers are and
-- however these are shared.
theorem hashWithin_eq_of_structurallyEqual (digest : Bytes → UInt64) (hv : s.Held v)
    (hw : s.Held w) (hacyclic : s.Acyclic Container.contents v)
    (hother : s.Acyclic Container.contents w) (h : s.StructurallyEqual v w) :
    s.hashWithin digest [] v = s.hashWithin digest [] w := by
  obtain ⟨R, hrelated, hR⟩ := h
  have hguards := guards_hashWithin digest s
  have hleft := (hguards.plainly_iff hv _).mpr ⟨hacyclic, rfl⟩
  have hright := (hguards.plainly_iff hw _).mpr ⟨hother, rfl⟩
  exact hleft.hash_eq hR hright hrelated

-- Two maps of other types with the same keys in another order. One holds a list twice, and the
-- other holds it once and next to it a list of a double, which has a sample.
def echoedStore : Store where
  cells := #[
    some (.list { element := .int, items := [.int 1] }),
    some (.map {
      object := .map, key := .string, element := .any
      entries := ((OrderedMap.empty.insert "a" (.int 2)).insert "b" (.container ⟨0⟩)).insert "c"
        (.container ⟨0⟩) }),
    some (.list {
      element := .any, sample := some (.int 7), items := [.float ⟨0x3ff0000000000000⟩] }),
    some (.map {
      object := .any, key := .any, element := .list
      entries := ((OrderedMap.empty.insert "c" (.container ⟨2⟩)).insert "b" (.container ⟨0⟩)).insert
        "a" (.float ⟨0x4000000000000000⟩) })]

theorem refers_echoedStore {a b : Address} (h : echoedStore.Refers a b) :
    b.index < a.index ∧ echoedStore.Lives b := by
  obtain ⟨c, hfind, hmem⟩ := exists_find?_of_refers h
  obtain ⟨_ | _ | _ | _ | i⟩ := a
  · cases hfind
    cases hmem
  · cases hfind
    have hmem : b ∈ [⟨0⟩, ⟨0⟩] := hmem
    simp only [List.mem_cons, List.not_mem_nil, or_false, or_self] at hmem
    rw [hmem]
    exact ⟨Nat.one_pos, rfl⟩
  · cases hfind
    cases hmem
  · cases hfind
    have hmem : b ∈ [⟨2⟩, ⟨0⟩] := hmem
    simp only [List.mem_cons, List.not_mem_nil, or_false] at hmem
    obtain rfl | rfl := hmem
    · exact ⟨Nat.lt_succ_self 2, rfl⟩
    · exact ⟨Nat.succ_pos 2, rfl⟩
  · simp [find?, echoedStore] at hfind

-- The pairs of values that the two maps match on.
inductive Echo : Value → Value → Prop
  | maps : Echo (.container ⟨1⟩) (.container ⟨3⟩)
  | same : Echo (.container ⟨0⟩) (.container ⟨0⟩)
  | lists : Echo (.container ⟨0⟩) (.container ⟨2⟩)
  | ones : Echo (.int 1) (.int 1)
  | doubles : Echo (.int 1) (.float ⟨0x3ff0000000000000⟩)
  | twos : Echo (.int 2) (.float ⟨0x4000000000000000⟩)

theorem matches_echo {v w : Value} (h : Echo v w) : echoedStore.Matches Echo v w := by
  cases h with
  | maps =>
    refine .map rfl rfl fun key => ?_
    simp only [OrderedMap.get?_insert]
    by_cases ha : key = "a"
    · simpa [ha] using Option.Rel.some Echo.twos
    by_cases hb : key = "b"
    · simpa [hb] using Option.Rel.some Echo.same
    by_cases hc : key = "c"
    · simpa [hc] using Option.Rel.some Echo.lists
    simp only [ha, hb, hc, if_false]
    exact .none
  | same => exact .list rfl rfl (.cons .ones .nil)
  | lists => exact .list rfl rfl (.cons .doubles .nil)
  | ones => exact .scalar rfl (by decide +kernel)
  | doubles => exact .scalar rfl (by decide +kernel)
  | twos => exact .scalar rfl (by decide +kernel)

theorem hashWithin_eq_of_structurallyEqual_echoed :
    echoedStore.Held (.container ⟨1⟩) ∧ echoedStore.Held (.container ⟨3⟩) ∧
      echoedStore.StructurallyEqual (.container ⟨1⟩) (.container ⟨3⟩) ∧
      echoedStore.hash (.container ⟨1⟩) = echoedStore.hash (.container ⟨3⟩) := by
  have hclosed : echoedStore.Closed := fun _ _ h => (refers_echoedStore h).2
  have hleft : echoedStore.Held (.container ⟨1⟩) :=
    hclosed.held fun a ha => Value.container.inj ha ▸ rfl
  have hright : echoedStore.Held (.container ⟨3⟩) :=
    hclosed.held fun a ha => Value.container.inj ha ▸ rfl
  have hacyclic (v : Value) : echoedStore.Acyclic Container.contents v :=
    acyclic_of_not_refers (hashing SipHash.digest).inside
      (not_transGen_self_of_older fun _ _ h => (refers_echoedStore h).1)
  have hequal : echoedStore.StructurallyEqual (.container ⟨1⟩) (.container ⟨3⟩) :=
    ⟨Echo, .maps, fun _ _ => matches_echo⟩
  exact ⟨hleft, hright, hequal, hashWithin_eq_of_structurallyEqual SipHash.digest hleft hright
    (hacyclic _) (hacyclic _) hequal⟩

end Store

end Conductor
