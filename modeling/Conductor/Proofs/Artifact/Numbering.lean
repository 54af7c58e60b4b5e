import Conductor.Artifact.SymbolTable
import Conductor.Proofs.Related

namespace Conductor

namespace SymbolTable

-- Functions in the ascending order of their numbers, which differ.
abbrev Ascending (functions : List (String × Function)) : Prop :=
  functions.Pairwise fun a b => a.2.id < b.2.id

-- Two functions of a table that share a number, in the order of their names.
structure Clashes (table : SymbolTable) (id : UInt16) (first second : String) : Prop where
  ordered : first < second
  shared : ∃ f g : Function, f.id = id ∧ g.id = id ∧ (first, f) ∈ table.toList ∧
    (second, g) ∈ table.toList

theorem perm_byId (table : SymbolTable) : table.byId.Perm table.toList := List.mergeSort_perm _ _

theorem pairwise_byId (table : SymbolTable) : table.byId.Pairwise fun a b => a.2.id ≤ b.2.id :=
  pairwise_mergeSort_word (fun function => function.2.id) table.toList

theorem byId_empty : byId .empty = [] := List.mergeSort_nil

theorem Ascending.nodup {functions : List (String × Function)} (h : Ascending functions) :
    (functions.map fun function => function.2.id).Nodup :=
  List.pairwise_map.mpr (h.imp UInt16.ne_of_lt)

-- Functions with different numbers have one ascending order.
theorem Ascending.eq_byId {table : SymbolTable} {functions : List (String × Function)}
    (h : Ascending functions) (hperm : functions.Perm table.toList) : functions = table.byId :=
  eq_of_perm_of_words (hperm.trans table.perm_byId.symm) h.nodup (h.imp UInt16.le_of_lt)
    table.pairwise_byId

-- A function finds its place, or there is one that has its number.
theorem insertById_cases (function : String × Function) {functions : List (String × Function)}
    (h : Ascending functions) :
    (∃ all, insertById function functions = (none, all) ∧ Ascending all ∧
      all.Perm (function :: functions)) ∨
    ∃ other all, insertById function functions = (some other, all) ∧ other ∈ functions ∧
      other.2.id = function.2.id := by
  induction functions with
  | nil => exact .inl ⟨[function], rfl, List.pairwise_singleton _ _, .refl _⟩
  | cons other rest ih =>
    obtain ⟨hother, hrest⟩ := List.pairwise_cons.mp h
    rw [insertById]
    by_cases hlt : function.2.id < other.2.id
    · rw [if_pos hlt]
      refine .inl ⟨_, rfl, List.pairwise_cons.mpr ⟨?_, h⟩, .refl _⟩
      exact List.forall_mem_cons.mpr ⟨hlt, fun a ha => UInt16.lt_trans hlt (hother a ha)⟩
    rw [if_neg hlt]
    by_cases heq : function.2.id = other.2.id
    · rw [if_pos heq]
      exact .inr ⟨other, _, rfl, List.mem_cons_self, heq.symm⟩
    rw [if_neg heq]
    obtain ⟨all, hall, hsorted, hperm⟩ | ⟨found, all, hall, hmem, hid⟩ := ih hrest
    · rw [hall]
      have hgt : other.2.id < function.2.id :=
        UInt16.lt_of_le_of_ne (UInt16.not_lt.mp hlt) (Ne.symm heq)
      refine .inl ⟨other :: all, rfl, List.pairwise_cons.mpr ⟨fun a ha => ?_, hsorted⟩, ?_⟩
      · obtain rfl | ha := List.mem_cons.mp (hperm.mem_iff.mp ha)
        · exact hgt
        · exact hother a ha
      · exact (hperm.cons other).trans (.swap function other rest)
    · rw [hall]
      exact .inr ⟨found, other :: all, rfl, List.mem_cons_of_mem other hmem, hid⟩

-- The places are kept up to the first function whose number is taken.
theorem indexAll_cases (rest : List (String × Function)) {functions : List (String × Function)}
    (h : Ascending functions) :
    (∃ all, indexAll functions rest = .ok all ∧ Ascending all ∧ all.Perm (functions ++ rest)) ∨
    ∃ before function after other, rest = before ++ function :: after ∧
      other ∈ functions ++ before ∧ other.2.id = function.2.id ∧
      indexAll functions rest = .error (clash other function) := by
  induction rest generalizing functions with
  | nil => exact .inl ⟨functions, rfl, h, by rw [List.append_nil]⟩
  | cons function rest ih =>
    rw [indexAll]
    obtain ⟨all, hall, hsorted, hperm⟩ | ⟨other, all, hall, hmem, hid⟩ :=
      insertById_cases function h
    · rw [hall]
      have hmiddle : (function :: functions ++ rest).Perm (functions ++ function :: rest) :=
        List.perm_middle.symm
      obtain ⟨result, hresult, hascending, hback⟩ |
          ⟨before, found, after, other, hrest, hother, hid, herror⟩ := ih hsorted
      · exact .inl
          ⟨result, hresult, hascending, (hback.trans (hperm.append_right rest)).trans hmiddle⟩
      · refine .inr ⟨function :: before, found, after, other, by rw [hrest, List.cons_append], ?_,
          hid, herror⟩
        exact List.perm_middle.symm.mem_iff.mp ((hperm.append_right before).mem_iff.mp hother)
    · rw [hall]
      exact .inr ⟨[], function, rest, other, rfl, List.mem_append_left [] hmem, hid, rfl⟩

-- Two names that a clash puts in order.
theorem clash_cases {a b : String × Function} (hne : a.1 ≠ b.1) :
    a.1 < b.1 ∧ clash a b = .duplicateFunctionId b.2.id a.1 b.1 ∨
      b.1 < a.1 ∧ clash a b = .duplicateFunctionId b.2.id b.1 a.1 := by
  rw [clash]
  by_cases hlt : a.1 < b.1
  · exact .inl ⟨hlt, if_pos hlt⟩
  · exact .inr ⟨Std.lt_of_le_of_ne hlt hne.symm, if_neg hlt⟩

theorem indexed_cases (table : SymbolTable) :
    table.indexed = .ok table.byId ∧ Ascending table.byId ∨
    ∃ id first second, table.indexed = .error (.duplicateFunctionId id first second) ∧
      table.Clashes id first second := by
  rw [indexed]
  obtain ⟨all, hall, hsorted, hperm⟩ | ⟨before, g, after, f, hlist, hf, hid, herror⟩ :=
    indexAll_cases table.toList List.Pairwise.nil
  · rw [hsorted.eq_byId hperm] at hall hsorted
    exact .inl ⟨hall, hsorted⟩
  · rw [List.nil_append] at hf
    have hnames := table.nodup
    rw [hlist, List.map_append, List.nodup_append] at hnames
    have hne : f.1 ≠ g.1 :=
      hnames.2.2 f.1 (List.mem_map_of_mem hf) g.1 (List.mem_map_of_mem List.mem_cons_self)
    have hfmem : f ∈ table.toList := hlist ▸ List.mem_append_left _ hf
    have hgmem : g ∈ table.toList := hlist ▸ List.mem_append_right _ List.mem_cons_self
    rw [herror]
    obtain ⟨hlt, hclash⟩ | ⟨hlt, hclash⟩ := clash_cases hne
    · exact .inr ⟨_, _, _, congrArg _ hclash, hlt, f.2, g.2, hid, rfl, hfmem, hgmem⟩
    · exact .inr ⟨_, _, _, congrArg _ hclash, hlt, g.2, f.2, rfl, hid, hgmem, hfmem⟩

theorem Clashes.not_nodup {table : SymbolTable} {id : UInt16} {first second : String}
    (h : table.Clashes id first second) :
    ¬(table.toList.map fun function => function.2.id).Nodup := by
  obtain ⟨hnames, f, g, hf, hg, hfirst, hsecond⟩ := h
  intro hids
  cases List.inj_on_of_nodup_map hids hfirst hsecond (hf.trans hg.symm)
  exact Std.lt_irrefl hnames

theorem indexed_eq_ok_iff {table : SymbolTable} {functions : List (String × Function)} :
    table.indexed = .ok functions ↔
      (table.toList.map fun function => function.2.id).Nodup ∧ functions = table.byId := by
  obtain ⟨hok, hsorted⟩ | ⟨id, first, second, herror, hclash⟩ := table.indexed_cases
  · rw [hok, Except.ok.injEq, eq_comm]
    exact (and_iff_right ((table.perm_byId.map _).nodup_iff.mp hsorted.nodup)).symm
  · rw [herror]
    exact ⟨fun h => (by cases h), fun h => absurd h.1 hclash.not_nodup⟩

end SymbolTable

end Conductor
