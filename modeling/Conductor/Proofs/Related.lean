import Mathlib.Data.List.Forall2
import Mathlib.Data.List.Sort

namespace Conductor

variable {α β : Type} {R S : α → β → Prop}

theorem forall₂_imp_of_mem {as : List α} {bs : List β} (h : List.Forall₂ R as bs)
    (himp : ∀ a ∈ as, ∀ b ∈ bs, R a b → S a b) : List.Forall₂ S as bs := by
  induction h with
  | nil => exact .nil
  | cons hhead _ ih =>
    refine .cons (himp _ List.mem_cons_self _ List.mem_cons_self hhead) (ih fun a ha b hb => ?_)
    exact himp a (List.mem_cons_of_mem _ ha) b (List.mem_cons_of_mem _ hb)

theorem forall_right_of_forall₂ {P : β → Prop} {as : List α} {bs : List β}
    (h : List.Forall₂ R as bs) (himp : ∀ a ∈ as, ∀ b ∈ bs, R a b → P b) : ∀ b ∈ bs, P b := by
  intro b hb
  obtain ⟨i, hi, rfl⟩ := List.getElem_of_mem hb
  have hj : i < as.length := by rwa [h.length_eq]
  exact himp _ (List.getElem_mem hj) _ hb (h.get hj hi)

-- Elements that are related to nothing but the elements of one list.
theorem eq_of_forall₂ {as : List α} {bs cs : List β}
    (hunique : List.Forall₂ (fun a b => ∀ c, R a c → b = c) as bs) (h : List.Forall₂ R as cs) :
    bs = cs := by
  induction hunique generalizing cs with
  | nil => cases h; rfl
  | cons hhead _ ih =>
    cases h with
    | cons hfirst hrest => rw [hhead _ hfirst, ih hrest]

theorem forall₂_getLast? {as : List α} {bs : List β} (h : List.Forall₂ R as bs) :
    List.Forall₂ R as.getLast?.toList bs.getLast?.toList := by
  induction h with
  | nil => exact .nil
  | cons hhead hrest ih =>
    cases hrest with
    | nil => exact .cons hhead .nil
    | cons _ _ => rwa [List.getLast?_cons_cons, List.getLast?_cons_cons]

theorem exists_getElem?_of_forall₂ {as : List α} {bs : List β} (h : List.Forall₂ R as bs) {i : Nat}
    {a : α} (ha : as[i]? = some a) : ∃ b, bs[i]? = some b ∧ R a b := by
  induction h generalizing i with
  | nil => cases ha
  | cons hhead _ ih =>
    cases i with
    | zero =>
      cases ha
      exact ⟨_, rfl, hhead⟩
    | succ i => exact ih ha

theorem exists_mem_zip_of_forall₂ {as : List α} {bs : List β} (h : List.Forall₂ R as bs) {a : α}
    (ha : a ∈ as) : ∃ b, (a, b) ∈ as.zip bs ∧ R a b := by
  induction h with
  | nil => cases ha
  | cons hhead _ ih =>
    rw [List.zip_cons_cons]
    rcases List.mem_cons.mp ha with rfl | hmem
    · exact ⟨_, List.mem_cons_self, hhead⟩
    · obtain ⟨b, hb, hab⟩ := ih hmem
      exact ⟨b, List.mem_cons_of_mem _ hb, hab⟩

theorem exists_mem_of_forall₂ {as : List α} {bs : List β} (h : List.Forall₂ R as bs) {a : α}
    (ha : a ∈ as) : ∃ b ∈ bs, R a b := by
  obtain ⟨b, hpair, hab⟩ := exists_mem_zip_of_forall₂ h ha
  exact ⟨b, (List.of_mem_zip hpair).2, hab⟩

-- Entries with equal keys and related values.
theorem forall₂_entries_iff {κ : Type} {es : List (κ × α)} {fs : List (κ × β)} :
    List.Forall₂ (fun e f => e.1 = f.1 ∧ R e.2 f.2) es fs ↔
      es.map Prod.fst = fs.map Prod.fst ∧ List.Forall₂ R (es.map Prod.snd) (fs.map Prod.snd) := by
  constructor
  · intro h
    induction h with
    | nil => exact ⟨rfl, .nil⟩
    | cons hhead _ ih => exact ⟨by simp [hhead.1, ih.1], .cons hhead.2 ih.2⟩
  · rintro ⟨hkeys, hvalues⟩
    induction es generalizing fs with
    | nil =>
      obtain rfl := List.map_eq_nil_iff.mp hkeys.symm
      exact .nil
    | cons e es ih =>
      cases fs with
      | nil => cases hkeys
      | cons f fs =>
        simp only [List.map_cons, List.cons.injEq, List.forall₂_cons] at hkeys hvalues
        exact .cons ⟨hkeys.1, hvalues.1⟩ (ih hkeys.2 hvalues.2)

theorem exists_forall₂_and (as : List α) (h : ∀ a ∈ as, ∃ b, R a b ∧ S a b) :
    ∃ bs, List.Forall₂ R as bs ∧ List.Forall₂ S as bs := by
  induction as with
  | nil => exact ⟨[], .nil, .nil⟩
  | cons a as ih =>
    obtain ⟨b, hr, hs⟩ := h a List.mem_cons_self
    obtain ⟨bs, hrs, hss⟩ := ih fun other hmem => h other (List.mem_cons_of_mem _ hmem)
    exact ⟨b :: bs, .cons hr hrs, .cons hs hss⟩

theorem exists_forall₂ (as : List α) (h : ∀ a ∈ as, ∃ b, R a b) : ∃ bs, List.Forall₂ R as bs := by
  have hall : ∀ a ∈ as, ∃ b, R a b ∧ True := fun a ha => (h a ha).imp fun _ h => ⟨h, trivial⟩
  obtain ⟨bs, hbs, -⟩ := exists_forall₂_and as hall
  exact ⟨bs, hbs⟩

theorem forall₂_set {as : List α} {bs : List β} {a : α} {b : β} {i : Nat}
    (h : List.Forall₂ R as bs) (hab : R a b) : List.Forall₂ R (as.set i a) (bs.set i b) := by
  induction h generalizing i with
  | nil => exact .nil
  | cons hhead hrest ih =>
    cases i with
    | zero => exact .cons hab hrest
    | succ i => exact .cons hhead ih

theorem forall₂_dropLast {as : List α} {bs : List β} (h : List.Forall₂ R as bs) :
    List.Forall₂ R as.dropLast bs.dropLast := by
  rw [List.dropLast_eq_take, List.dropLast_eq_take, h.length_eq]
  exact List.forall₂_take _ h

section Options

variable {x : Option α} {y : Option β}

theorem rel_imp (himp : ∀ a b, R a b → S a b) (h : Option.Rel R x y) : Option.Rel S x y := by
  cases h with
  | none => exact .none
  | some h => exact .some (himp _ _ h)

theorem rel_flip (h : Option.Rel R x y) : Option.Rel (flip R) y x := by
  cases h with
  | none => exact .none
  | some h => exact .some h

theorem exists_rel (h : ∀ a ∈ x, ∃ b, R a b) : ∃ y, Option.Rel R x y := by
  cases x with
  | none => exact ⟨none, .none⟩
  | some a =>
    obtain ⟨b, hb⟩ := h a rfl
    exact ⟨some b, .some hb⟩

theorem rel_self {P : α → α → Prop} (h : ∀ a ∈ x, P a a) : Option.Rel P x x := by
  cases x with
  | none => exact .none
  | some a => exact .some (h a rfl)

theorem rel_of_isSome_eq (hsome : x.isSome = y.isSome) (h : ∀ a ∈ x, ∀ b ∈ y, R a b) :
    Option.Rel R x y := by
  cases x <;> cases y
  · exact .none
  · cases hsome
  · cases hsome
  · exact .some (h _ rfl _ rfl)

theorem rel_getElem? {as : List α} {bs : List β} (h : List.Forall₂ R as bs) (i : Nat) :
    Option.Rel R as[i]? bs[i]? := by
  induction h generalizing i with
  | nil => exact .none
  | cons hhead _ ih =>
    cases i with
    | zero => exact .some hhead
    | succ i => exact ih i

end Options

theorem exists_of_bind_ok {ε : Type} {first : Except ε α} {next : α → Except ε β} {b : β}
    (h : first >>= next = .ok b) : ∃ a, first = .ok a ∧ next a = .ok b := by
  cases first with
  | error error => cases h
  | ok a => exact ⟨a, rfl, h⟩

theorem forall₂_of_mapM {ε : Type} {f : α → Except ε β} {items : List α} {values : List β}
    (h : items.mapM f = .ok values) :
    List.Forall₂ (fun item value => f item = .ok value) items values := by
  induction items generalizing values with
  | nil =>
    cases h
    exact .nil
  | cons item rest ih =>
    rw [List.mapM_cons] at h
    obtain ⟨value, hitem, h⟩ := exists_of_bind_ok h
    obtain ⟨tail, hrest, h⟩ := exists_of_bind_ok h
    cases h
    exact .cons hitem (ih hrest)

theorem mapM_of_forall₂ {ε : Type} {f : α → Except ε β} {items : List α} {values : List β}
    (h : List.Forall₂ (fun item value => f item = .ok value) items values) :
    items.mapM f = .ok values := by
  induction h with
  | nil => rfl
  | cons hitem _ ih =>
    rw [List.mapM_cons, hitem, ih]
    rfl

theorem mapM_congr {ε : Type} {f g : α → Except ε β} {items : List α}
    (h : ∀ item ∈ items, f item = g item) : items.mapM f = items.mapM g := by
  induction items with
  | nil => rfl
  | cons item rest ih =>
    obtain ⟨hitem, hrest⟩ := List.forall_mem_cons.mp h
    rw [List.mapM_cons, List.mapM_cons, hitem, ih hrest]

-- A list of steps that all succeed, and what they come to.
theorem mapM_ok_of_forall {ε : Type} {f : α → Except ε β} (items : List α)
    (h : ∀ item ∈ items, ∃ value, f item = .ok value ∧ R item value) :
    ∃ values, items.mapM f = .ok values ∧ List.Forall₂ R items values := by
  induction items with
  | nil => exact ⟨[], rfl, .nil⟩
  | cons item rest ih =>
    obtain ⟨value, hvalue, hrelated⟩ := h item List.mem_cons_self
    obtain ⟨values, hvalues, hall⟩ := ih fun other hmem => h other (List.mem_cons_of_mem _ hmem)
    refine ⟨value :: values, ?_, .cons hrelated hall⟩
    rw [List.mapM_cons, hvalue, hvalues]
    rfl

-- A list of steps: all of them succeed, or the first that does not gives the error.
theorem mapM_cases {ε : Type} {f : α → Except ε β} {P : α → Prop} {Q : ε → Prop} (items : List α)
    (h : ∀ item ∈ items, (∃ value, f item = .ok value) ∧ P item ∨
      ∃ error, f item = .error error ∧ Q error) :
    (∃ values, items.mapM f = .ok values) ∧ (∀ item ∈ items, P item) ∨
      ∃ error, items.mapM f = .error error ∧ Q error := by
  induction items with
  | nil => exact .inl ⟨⟨[], rfl⟩, nofun⟩
  | cons head rest ih =>
    rw [List.mapM_cons]
    obtain ⟨⟨value, hvalue⟩, hhead⟩ | ⟨error, herror, hQ⟩ := h head List.mem_cons_self
    · rw [hvalue]
      obtain ⟨⟨values, hvalues⟩, hrest⟩ | ⟨error, herror, hQ⟩ :=
        ih fun item hmem => h item (List.mem_cons_of_mem _ hmem)
      · rw [hvalues]
        exact .inl ⟨⟨value :: values, rfl⟩, List.forall_mem_cons.mpr ⟨hhead, hrest⟩⟩
      · rw [herror]
        exact .inr ⟨error, rfl, hQ⟩
    · rw [herror]
      exact .inr ⟨error, rfl, hQ⟩

-- A list of steps ends at the first that fails.
theorem mapM_error_of_first {ε : Type} {f : α → Except ε β} {before after : List α} {item : α}
    {error : ε} (hbefore : ∀ earlier ∈ before, ∃ value, f earlier = .ok value)
    (h : f item = .error error) : (before ++ item :: after).mapM f = .error error := by
  induction before with
  | nil =>
    rw [List.nil_append, List.mapM_cons, h]
    rfl
  | cons head rest ih =>
    obtain ⟨⟨value, hvalue⟩, hrest⟩ := List.forall_mem_cons.mp hbefore
    rw [List.cons_append, List.mapM_cons, hvalue, ih hrest]
    rfl

-- All elements have the one property, or there is a first that has the other.
theorem forall_or_exists_first {P Q : α → Prop} (items : List α)
    (h : ∀ item ∈ items, P item ∨ Q item) :
    (∀ item ∈ items, P item) ∨ ∃ before item after, items = before ++ item :: after ∧
      (∀ earlier ∈ before, P earlier) ∧ Q item := by
  induction items with
  | nil => exact .inl (List.forall_mem_nil _)
  | cons head rest ih =>
    obtain ⟨hhead, hrest⟩ := List.forall_mem_cons.mp h
    rcases hhead with hP | hQ
    · obtain hall | ⟨before, item, after, rfl, hbefore, hitem⟩ := ih hrest
      · exact .inl (List.forall_mem_cons.mpr ⟨hP, hall⟩)
      · exact .inr ⟨head :: before, item, after, rfl, List.forall_mem_cons.mpr ⟨hP, hbefore⟩, hitem⟩
    · exact .inr ⟨[], head, rest, rfl, List.forall_mem_nil _, hQ⟩

section Words

variable {word : α → UInt16} {as bs : List α}

theorem pairwise_mergeSort_word (word : α → UInt16) (as : List α) :
    (as.mergeSort fun a b => decide (word a ≤ word b)).Pairwise fun a b => word a ≤ word b := by
  have htrans (a b c : α) (hab : decide (word a ≤ word b)) (hbc : decide (word b ≤ word c)) :
      decide (word a ≤ word c) :=
    decide_eq_true (UInt16.le_trans (of_decide_eq_true hab) (of_decide_eq_true hbc))
  have htotal (a b : α) : (decide (word a ≤ word b) || decide (word b ≤ word a)) = true := by
    simpa using UInt16.le_total (word a) (word b)
  exact (List.pairwise_mergeSort htrans htotal as).imp of_decide_eq_true

-- Elements with different words have one ascending order.
theorem eq_of_perm_of_words (hperm : as.Perm bs) (hwords : (as.map word).Nodup)
    (has : as.Pairwise fun a b => word a ≤ word b) (hbs : bs.Pairwise fun a b => word a ≤ word b) :
    as = bs := by
  have hantisymm : ∀ a b, a ∈ as → b ∈ bs → word a ≤ word b → word b ≤ word a → a = b :=
    fun a b ha hb hab hba =>
      List.inj_on_of_nodup_map hwords ha (hperm.mem_iff.mpr hb) (UInt16.le_antisymm hab hba)
  exact hperm.eq_of_pairwise hantisymm has hbs

end Words

end Conductor
