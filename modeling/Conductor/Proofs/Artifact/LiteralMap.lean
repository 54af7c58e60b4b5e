import Conductor.Artifact.LiteralMap
import Conductor.Proofs.Equality
import Conductor.Proofs.Related

namespace Conductor.LiteralMap

variable {m : LiteralMap} {entries : List (Value × UInt16)}

def indices (entries : List (Value × UInt16)) : List Nat := entries.map fun entry => entry.2.toNat

-- The indices are those of a pool, in whatever order.
def Dense (m : LiteralMap) : Prop := (indices m.toList).Perm (List.range m.toList.length)

-- The literals of a pool with their indices.
def placed (literals : List Value) : List (Value × UInt16) :=
  literals.zipIdx.map fun (v, i) => (v, UInt16.ofNat i)

def byIndex (m : LiteralMap) : List (Value × UInt16) :=
  m.toList.mergeSort fun a b => decide (a.2 ≤ b.2)

theorem perm_byIndex (m : LiteralMap) : m.byIndex.Perm m.toList := List.mergeSort_perm _ _

theorem pairwise_byIndex (m : LiteralMap) : m.byIndex.Pairwise fun a b => a.2 ≤ b.2 :=
  pairwise_mergeSort_word Prod.snd m.toList

theorem length_byIndex (m : LiteralMap) : m.byIndex.length = m.toList.length :=
  m.perm_byIndex.length_eq

theorem gap?_eq_none_iff {expected : Nat} :
    gap? expected entries = none ↔ indices entries = List.range' expected entries.length := by
  induction entries generalizing expected with
  | nil => exact ⟨fun _ => rfl, fun _ => rfl⟩
  | cons entry rest ih =>
    obtain ⟨v, found⟩ := entry
    rw [gap?, indices, List.map_cons, List.length_cons, List.range'_succ, List.cons.injEq]
    by_cases h : expected = found.toNat
    · rw [if_pos h, ih]
      exact (and_iff_right h.symm).symm
    · rw [if_neg h]
      exact ⟨nofun, fun heq => absurd heq.1.symm h⟩

-- In order the indices of a pool are the numbers from zero on.
theorem dense_iff_gap? : m.Dense ↔ gap? 0 m.byIndex = none := by
  have hperm : (indices m.byIndex).Perm (indices m.toList) := m.perm_byIndex.map _
  have hsorted : (indices m.byIndex).Pairwise (· ≤ ·) :=
    List.pairwise_map.mpr (m.pairwise_byIndex.imp UInt16.le_iff_toNat_le.mp)
  rw [gap?_eq_none_iff, length_byIndex, ← List.range_eq_range', Dense]
  constructor
  · intro h
    exact (hperm.trans h).eq_of_pairwise (fun _ _ _ _ => Nat.le_antisymm) hsorted
      (List.pairwise_lt_range.imp Nat.le_of_lt)
  · intro h
    rw [← h]
    exact hperm.symm

theorem ordered_cases (m : LiteralMap) :
    m.Dense ∧ m.ordered = .ok (m.byIndex.map Prod.fst) ∨
      ¬m.Dense ∧ ∃ expected found, m.ordered = .error (.literalIndexGap expected found) := by
  rw [dense_iff_gap?, byIndex]
  cases hgap : gap? 0 (m.toList.mergeSort fun a b => decide (a.2 ≤ b.2)) with
  | none => exact .inl ⟨rfl, by simp only [ordered, hgap]⟩
  | some gap => exact .inr ⟨nofun, UInt16.ofNat gap.1, gap.2, by simp only [ordered, hgap]⟩

-- An entry is at the place of its index.
theorem Dense.getElem?_byIndex (h : m.Dense) {entry : Value × UInt16} (hmem : entry ∈ m.toList) :
    (m.byIndex.map Prod.fst)[entry.2.toNat]? = some entry.1 := by
  have hindices := gap?_eq_none_iff.mp (dense_iff_gap?.mp h)
  obtain ⟨i, hi, hget⟩ := List.getElem_of_mem (m.perm_byIndex.mem_iff.mpr hmem)
  have hplace : (indices m.byIndex)[i]? = some entry.2.toNat := by
    rw [indices, List.getElem?_map, List.getElem?_eq_getElem hi, hget]
    rfl
  rw [hindices, List.getElem?_range' hi, Option.some.injEq] at hplace
  have hindex : entry.2.toNat = i := by omega
  rw [hindex, List.getElem?_map, List.getElem?_eq_getElem hi, hget]
  rfl

theorem Dense.of_perm {other : LiteralMap} (h : m.Dense) (hperm : other.toList.Perm m.toList) :
    other.Dense := by
  have hindices : (indices other.toList).Perm (indices m.toList) := hperm.map _
  rw [Dense, hperm.length_eq]
  exact hindices.trans h

-- A map gives its literals in the order of their indices, whatever the order in which it is
-- iterated.
theorem Dense.ordered_of_perm {other : LiteralMap} (h : m.Dense)
    (hperm : other.toList.Perm m.toList) : other.ordered = .ok (m.byIndex.map Prod.fst) := by
  have hwords : (other.byIndex.map Prod.snd).Nodup := by
    refine List.Nodup.of_map UInt16.toNat ?_
    have hindices : (indices other.byIndex).Perm (List.range other.toList.length) :=
      (other.perm_byIndex.map _).trans (h.of_perm hperm)
    rw [List.map_map]
    exact hindices.nodup_iff.mpr List.nodup_range
  have hback : other.byIndex = m.byIndex :=
    eq_of_perm_of_words (other.perm_byIndex.trans (hperm.trans m.perm_byIndex.symm)) hwords
      other.pairwise_byIndex m.pairwise_byIndex
  obtain ⟨_, hordered⟩ | ⟨hsparse, _⟩ := other.ordered_cases
  · rw [hordered, hback]
  · exact absurd (h.of_perm hperm) hsparse

theorem indices_placed {literals : List Value} (h : literals.length ≤ UInt16.size) :
    indices (placed literals) = List.range literals.length := by
  rw [indices, placed, List.map_map, List.range_eq_range', ← List.zipIdx_map_snd]
  refine List.map_congr_left fun entry hmem => UInt16.toNat_ofNat_of_lt ?_
  exact Nat.lt_of_lt_of_le (List.snd_lt_of_mem_zipIdx hmem) h

theorem length_placed (literals : List Value) : (placed literals).length = literals.length := by
  rw [placed, List.length_map, List.length_zipIdx]

theorem map_fst_placed (literals : List Value) : (placed literals).map Prod.fst = literals := by
  rw [placed, List.map_map]
  exact List.zipIdx_map_fst 0 literals

-- A map that holds the literals of a pool under their indices gives them back as they stand.
theorem ordered_of_perm {literals : List Value} (hsize : literals.length ≤ UInt16.size)
    (hperm : m.toList.Perm (placed literals)) : m.ordered = .ok literals := by
  have hplaced := indices_placed hsize
  have hdense : Dense ⟨placed literals⟩ := by
    rw [Dense, hplaced, length_placed]
  have hsorted : (placed literals).Pairwise fun a b => decide (a.2 ≤ b.2) := by
    have hlt : (indices (placed literals)).Pairwise (· < ·) := hplaced ▸ List.pairwise_lt_range
    exact (List.pairwise_map.mp hlt).imp fun h =>
      decide_eq_true (UInt16.le_of_lt (UInt16.lt_iff_toNat_lt.mpr h))
  have hback : byIndex ⟨placed literals⟩ = placed literals := List.mergeSort_of_pairwise hsorted
  rw [hdense.ordered_of_perm hperm, hback, map_fst_placed]

section Insertion

variable {literals : List Value}

-- No literal equals one before it, so each is a key of its own.
def Unequal (literals : List Value) : Prop := literals.Pairwise fun v w => v.equals w = false

theorem ofList_concat (entries : List (Value × UInt16)) (entry : Value × UInt16) :
    (ofList (entries ++ [entry])).toList = insertEntry entry.1 entry.2 (ofList entries).toList := by
  rw [ofList, List.foldl_append]
  rfl

-- A new key comes last, an equal one only gives its index away.
theorem insertEntry_cases (key : Value) (index : UInt16) (entries : List (Value × UInt16)) :
    (∀ entry ∈ entries, entry.1.equals key = false) ∧
        insertEntry key index entries = entries ++ [(key, index)] ∨
      (¬∀ entry ∈ entries, entry.1.equals key = false) ∧
        (insertEntry key index entries).length = entries.length := by
  induction entries with
  | nil => exact .inl ⟨List.forall_mem_nil _, rfl⟩
  | cons head rest ih =>
    rw [insertEntry, List.forall_mem_cons]
    cases hhead : head.1.equals key with
    | true => exact .inr ⟨fun h => Bool.noConfusion h.1, rfl⟩
    | false =>
      rw [if_neg Bool.false_ne_true]
      obtain ⟨hrest, heq⟩ | ⟨hrest, hlength⟩ := ih
      · exact .inl ⟨⟨rfl, hrest⟩, by rw [heq, List.cons_append]⟩
      · exact .inr ⟨fun h => hrest h.2, by rw [List.length_cons, List.length_cons, hlength]⟩

-- The index is that of some key, if not of this one.
theorem index_mem_insertEntry (key : Value) (index : UInt16) (entries : List (Value × UInt16)) :
    index.toNat ∈ indices (insertEntry key index entries) := by
  induction entries with
  | nil => exact List.mem_singleton_self _
  | cons head rest ih =>
    rw [insertEntry]
    split
    · exact List.mem_cons_self
    · exact List.mem_cons_of_mem _ ih

-- The literals of a pool are keys of their own, or their map is shorter than the pool.
theorem ofList_cases (entries : List (Value × UInt16)) :
    Unequal (entries.map Prod.fst) ∧ (ofList entries).toList = entries ∨
      ¬Unequal (entries.map Prod.fst) ∧ (ofList entries).toList.length < entries.length := by
  induction entries using List.reverseRecOn with
  | nil => exact .inl ⟨.nil, rfl⟩
  | append_singleton init last ih =>
    have hunequal : Unequal ((init ++ [last]).map Prod.fst) ↔
        Unequal (init.map Prod.fst) ∧ ∀ entry ∈ init, entry.1.equals last.1 = false := by
      simp [Unequal, List.pairwise_append]
    rw [hunequal, ofList_concat, List.length_append, List.length_singleton]
    have hcases := insertEntry_cases last.1 last.2 (ofList init).toList
    obtain ⟨hinit, heq⟩ | ⟨hinit, hlength⟩ := ih
    · rw [heq] at hcases ⊢
      obtain ⟨hlast, hinsert⟩ | ⟨hlast, hinsert⟩ := hcases
      · exact .inl ⟨⟨hinit, hlast⟩, hinsert⟩
      · exact .inr ⟨fun h => hlast h.2, Nat.lt_succ_of_le hinsert.le⟩
    · refine .inr ⟨fun h => hinit h.1, ?_⟩
      obtain ⟨_, hinsert⟩ | ⟨_, hinsert⟩ := hcases
      · rw [hinsert, List.length_append, List.length_singleton]
        exact Nat.succ_lt_succ hlength
      · rw [hinsert]
        exact Nat.lt_succ_of_lt hlength

-- Keys that have forms of their own are not equal.
theorem unequal_of_distinct {seen : Std.HashSet Value} (h : distinct seen entries = true) :
    Unequal (entries.map Prod.fst) ∧ ∀ entry ∈ entries, entry.1.canonical ∉ seen := by
  induction entries generalizing seen with
  | nil => exact ⟨.nil, List.forall_mem_nil _⟩
  | cons head rest ih =>
    simp only [distinct, Bool.and_eq_true, Bool.not_eq_true'] at h
    obtain ⟨hrest, hseen⟩ := ih h.2
    have hhead : head.1.canonical ∉ seen := by
      rw [Std.HashSet.mem_iff_contains, h.1]
      exact Bool.false_ne_true
    have hnew (entry : Value × UInt16) (hmem : entry ∈ rest) :
        head.1.canonical ≠ entry.1.canonical ∧ entry.1.canonical ∉ seen := by
      have hother := hseen entry hmem
      simpa only [Std.HashSet.mem_insert, beq_iff_eq, not_or] using hother
    refine ⟨.cons (fun v hv => ?_) hrest, List.forall_mem_cons.mpr
      ⟨hhead, fun entry hmem => (hnew entry hmem).2⟩⟩
    obtain ⟨entry, hmem, rfl⟩ := List.mem_map.mp hv
    exact Bool.eq_false_iff.mpr fun hequal =>
      (hnew entry hmem).1 (Value.canonical_of_equals hequal)

-- A map is collected as if its entries were put in one by one.
theorem collect_eq_ofList (entries : List (Value × UInt16)) : collect entries = ofList entries := by
  rw [collect]
  split
  · rename_i h
    obtain ⟨_, heq⟩ | ⟨hequal, _⟩ := ofList_cases entries
    · exact congrArg LiteralMap.mk heq.symm
    · exact absurd (unequal_of_distinct h).1 hequal
  · rfl

theorem Unequal.of_perm {others : List Value} (h : Unequal literals)
    (hperm : literals.Perm others) :
    Unequal others := by
  have hsymm {v w : Value} (h : v.equals w = false) : w.equals v = false := by
    rw [Bool.eq_false_iff, Ne, Value.equals_iff_place] at h ⊢
    exact fun ⟨p, hw, hv⟩ => h ⟨p, hv, hw⟩
  exact (hperm.pairwise_iff hsymm).mp h

-- Collected in any order, a pool without equal literals is found in its map as it stands.
theorem perm_placed_of_unequal (hunequal : Unequal literals)
    (hperm : entries.Perm (placed literals))
    (hm : m.toList.Perm (ofList entries).toList) : m.toList.Perm (placed literals) := by
  have hentries : Unequal (entries.map Prod.fst) := by
    refine hunequal.of_perm ?_
    rw [← map_fst_placed literals]
    exact hperm.symm.map Prod.fst
  obtain ⟨_, heq⟩ | ⟨hequal, _⟩ := ofList_cases entries
  · rw [heq] at hm
    exact hm.trans hperm
  · exact absurd hentries hequal

-- Whatever key it is under, the last index of a pool is in its map.
theorem last_mem_indices (hpos : 0 < literals.length) (hsize : literals.length ≤ UInt16.size) :
    literals.length - 1 ∈ indices (ofList (placed literals)).toList := by
  obtain ⟨init, last, rfl⟩ := List.eq_nil_or_concat' literals |>.resolve_left
    (List.ne_nil_of_length_pos hpos)
  have hplaced : placed (init ++ [last]) = placed init ++ [(last, UInt16.ofNat init.length)] := by
    rw [placed, List.zipIdx_append, List.map_append, Nat.zero_add]
    rfl
  have hword : (UInt16.ofNat init.length).toNat = (init ++ [last]).length - 1 := by
    rw [List.length_append, List.length_singleton] at hsize ⊢
    exact UInt16.toNat_ofNat_of_lt hsize
  rw [hplaced, ofList_concat, ← hword]
  exact index_mem_insertEntry _ _ _

-- Equal literals are one key of the map.
theorem length_lt_of_equal (hequal : ¬Unequal literals)
    (hm : m.toList.Perm (ofList (placed literals)).toList) : m.toList.length < literals.length := by
  rw [← map_fst_placed literals] at hequal
  obtain ⟨hunequal, _⟩ | ⟨_, hlength⟩ := ofList_cases (placed literals)
  · exact absurd hunequal hequal
  · rwa [← hm.length_eq, length_placed] at hlength

-- Among equal literals the last index of the pool is kept, though it is past the size of the map.
theorem not_dense_of_equal (hequal : ¬Unequal literals) (hsize : literals.length ≤ UInt16.size)
    (hm : m.toList.Perm (ofList (placed literals)).toList) : ¬m.Dense := by
  have hlength := length_lt_of_equal hequal hm
  intro hdense
  have hplace : literals.length - 1 ∈ indices m.toList := by
    have hlast := last_mem_indices (Nat.zero_lt_of_lt hlength) hsize
    exact (hm.map _).mem_iff.mpr hlast
  have hbound := List.mem_range.mp (hdense.mem_iff.mp hplace)
  omega

end Insertion

end Conductor.LiteralMap
