import Conductor.Store.Basic
import Mathlib.Data.List.Forall2

namespace Conductor

-- A container with void for every value in it, and unmodified. What is left are its kind, its
-- types, its keys and the numbers of its samples and elements.
def Container.outline : Container → Container
  | .list cell =>
    .list {
      element := cell.element
      sample := cell.sample.map fun _ => .void
      items := cell.items.map fun _ => .void }
  | .map cell =>
    .map {
      object := cell.object
      key := cell.key
      element := cell.element
      sample := cell.sample.map fun _ => (.void, .void)
      entries := cell.entries.map fun _ => .void }

namespace Store

inductive Alike (s t : Store) : Value → Value → Prop
  | scalar {v : Value} (h : v.isContainer = false) : Alike s t v v
  | container {a b : Address} {c d : Container} (hleft : s.find? a = some c)
      (hright : t.find? b = some d) (houtline : c.outline = d.outline)
      (h : ∀ pair ∈ c.children.zip d.children, Alike s t pair.1 pair.2) :
      Alike s t (.container a) (.container b)

-- The larger store keeps every container of the smaller one as it is.
def Extends (s t : Store) : Prop := ∀ a c, s.find? a = some c → t.find? a = some c

theorem Extends.refl (s : Store) : s.Extends s := fun _ _ h => h

theorem Extends.trans {s t u : Store} (hst : s.Extends t) (htu : t.Extends u) : s.Extends u :=
  fun a c h => htu a c (hst a c h)

theorem find?_allocate_self (s : Store) (c : Container) :
    (s.allocate c).2.find? (s.allocate c).1 = some c := by
  rw [find?_allocate, if_pos rfl]

theorem extends_allocate (s : Store) (c : Container) : s.Extends (s.allocate c).2 := by
  intro a d h
  have hne : a ≠ (s.allocate c).1 := by
    rintro rfl
    have hnone : s.find? (s.allocate c).1 = none := find?_of_size_le (Nat.le_refl s.cells.size)
    rw [hnone] at h
    cases h
  rw [find?_allocate, if_neg hne, h]

theorem Alike.of_extends {s t u : Store} {v w : Value} (h : Alike s t v w) (hext : t.Extends u) :
    Alike s u v w := by
  induction h with
  | scalar h => exact .scalar h
  | container hleft hright houtline _ ih =>
    exact .container hleft (hext _ _ hright) houtline ih

-- A relation that a growing store keeps.
def Persistent {α β : Type} (R : Store → α → β → Prop) : Prop :=
  ∀ s t a b, s.Extends t → R s a b → R t a b

theorem persistent_alike (s : Store) : Persistent (Alike s) :=
  fun _ _ _ _ hext h => h.of_extends hext

theorem persistent_forall₂ {α β : Type} {R : Store → α → β → Prop} (h : Persistent R) :
    Persistent fun t => List.Forall₂ (R t) :=
  fun s t _ _ hext hall => hall.imp fun a b hab => h s t a b hext hab

-- Building on a store only adds to it, and what is built stands for `a`.
def Builds {α β : Type} (R : Store → α → β → Prop) (a : α) (build : Store → β × Store) : Prop :=
  ∀ t, t.Extends (build t).2 ∧ R (build t).2 a (build t).1

-- What is built first stays what it stands for while the second is built.
theorem Builds.followed {α β γ δ : Type} {R : Store → α → β → Prop} {S : Store → γ → δ → Prop}
    {a : α} {c : γ} {first : Store → β × Store} {second : Store → δ × Store}
    (hfirst : Builds R a first) (hkeep : Persistent R) (hsecond : Builds S c second) (t : Store) :
    t.Extends (second (first t).2).2 ∧ R (second (first t).2).2 a (first t).1 ∧
      S (second (first t).2).2 c (second (first t).2).1 := by
  obtain ⟨hgrow, hvalue⟩ := hfirst t
  obtain ⟨hgrowSecond, hother⟩ := hsecond (first t).2
  exact ⟨hgrow.trans hgrowSecond, hkeep _ _ _ _ hgrowSecond hvalue, hother⟩

-- Elements that are built one after the other stay what they stand for.
theorem builds_traverse {α β γ : Type} {R : Store → α → γ → Prop} {f : Store → β → γ × Store}
    (hkeep : Persistent R) {as : List α} {bs : List β}
    (h : List.Forall₂ (fun a b => Builds R a fun t => f t b) as bs) :
    Builds (fun t => List.Forall₂ (R t)) as fun t => t.traverse f bs := by
  induction h with
  | nil => exact fun t => ⟨.refl t, .nil⟩
  | @cons a b as bs hhead _ ih =>
    intro t
    obtain ⟨hgrow, hvalue, hrest⟩ := hhead.followed hkeep ih t
    exact ⟨hgrow, .cons hvalue hrest⟩

end Store

end Conductor
