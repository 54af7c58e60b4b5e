import Conductor.Proofs.Artifact.OutOfTurn
import Conductor.Proofs.Artifact.Sections

namespace Conductor

open Serializer

namespace LiteralMap

variable {m : LiteralMap} {entries : List (Value × UInt16)} {position found : Nat} {word : UInt16}

-- The indices in ascending order, each as often as it was given.
def ascending (m : LiteralMap) : List Nat := (indices m.toList).mergeSort fun i j => decide (i ≤ j)

-- The first position at which the ascending indices have another one.
structure Gap (m : LiteralMap) (position found : Nat) : Prop where
  here : m.ascending[position]? = some found
  other : found ≠ position
  before : ∀ i < position, m.ascending[i]? = some i

-- All words are given as indices, and then the last of them again.
def Overfull (m : LiteralMap) : Prop :=
  ∃ again, 0 < again ∧ (indices m.toList).Perm
    (List.range UInt16.size ++ List.replicate again (UInt16.size - 1))

theorem perm_ascending (m : LiteralMap) : m.ascending.Perm (indices m.toList) :=
  List.mergeSort_perm _ _

theorem pairwise_ascending (m : LiteralMap) : m.ascending.Pairwise (· ≤ ·) := by
  refine (List.pairwise_mergeSort (fun i j k hij hjk => ?_) (fun i j => ?_) _).imp of_decide_eq_true
  · exact decide_eq_true (Nat.le_trans (of_decide_eq_true hij) (of_decide_eq_true hjk))
  · simpa using Nat.le_total i j

theorem ascending_eq {sorted : List Nat} (hperm : (indices m.toList).Perm sorted)
    (hsorted : sorted.Pairwise (· ≤ ·)) : m.ascending = sorted :=
  (m.perm_ascending.trans hperm).eq_of_pairwise (fun _ _ _ _ => Nat.le_antisymm)
    m.pairwise_ascending hsorted

-- The serializer goes through the indices in this order.
theorem ascending_eq_byIndex (m : LiteralMap) : m.ascending = indices m.byIndex :=
  ascending_eq (m.perm_byIndex.symm.map _)
    (List.pairwise_map.mpr (m.pairwise_byIndex.imp UInt16.le_iff_toNat_le.mp))

theorem lt_size_of_mem_ascending {i : Nat} (h : i ∈ m.ascending) : i < UInt16.size := by
  obtain ⟨entry, _, rfl⟩ := List.mem_map.mp (m.perm_ascending.mem_iff.mp h)
  exact entry.2.toNat_lt

-- The search comes to the first departure.
theorem exists_of_gap?_eq_some {expected : Nat}
    (h : gap? expected entries = some (position, word)) :
    ∃ i, position = expected + i ∧ (indices entries)[i]? = some word.toNat ∧
      word.toNat ≠ position ∧ ∀ j < i, (indices entries)[j]? = some (expected + j) := by
  induction entries generalizing expected with
  | nil => cases h
  | cons entry rest ih =>
    rw [gap?] at h
    by_cases hhead : expected = entry.2.toNat
    · rw [if_pos hhead] at h
      obtain ⟨i, hposition, hhere, hother, hbefore⟩ := ih h
      refine ⟨i + 1, by omega, hhere, hother, fun j hj => ?_⟩
      cases j with
      | zero => exact congrArg some hhead.symm
      | succ j =>
        have hj := hbefore j (by omega)
        rw [Nat.add_right_comm] at hj
        exact hj
    · rw [if_neg hhead] at h
      cases h
      exact ⟨0, rfl, rfl, fun heq => hhead heq.symm, fun j hj => absurd hj j.not_lt_zero⟩

theorem exists_gap_of_not_dense (h : ¬m.Dense) :
    ∃ position word, m.Gap position word.toNat ∧
      m.ordered = .error (.literalIndexGap (UInt16.ofNat position) word) := by
  rw [dense_iff_gap?, byIndex] at h
  cases hgap : gap? 0 (m.toList.mergeSort fun a b => decide (a.2 ≤ b.2)) with
  | none => exact absurd hgap h
  | some gap =>
    obtain ⟨i, hposition, hhere, hother, hbefore⟩ := exists_of_gap?_eq_some hgap
    rw [Nat.zero_add] at hposition
    subst hposition
    refine ⟨gap.1, gap.2, ⟨?_, hother, fun j hj => ?_⟩, by simp only [ordered, hgap]⟩
    · rw [ascending_eq_byIndex]
      exact hhere
    · rw [ascending_eq_byIndex]
      exact (hbefore j hj).trans (by rw [Nat.zero_add])

theorem Gap.unique {other another : Nat} (h : m.Gap position found) (hother : m.Gap other another) :
    other = position ∧ another = found := by
  obtain hlt | rfl | hlt := Nat.lt_trichotomy other position
  · have hsame := hother.here.symm.trans (h.before other hlt)
    exact absurd (Option.some.inj hsame) hother.other
  · exact ⟨rfl, Option.some.inj (hother.here.symm.trans h.here)⟩
  · have hsame := h.here.symm.trans (hother.before position hlt)
    exact absurd (Option.some.inj hsame) h.other

theorem Gap.not_dense (h : m.Gap position found) : ¬m.Dense := by
  intro hdense
  have hhere := h.here
  rw [ascending_eq hdense (List.pairwise_lt_range.imp Nat.le_of_lt)] at hhere
  obtain ⟨_, heq⟩ := List.getElem?_eq_some_iff.mp hhere
  rw [List.getElem_range] at heq
  exact h.other heq.symm

-- No index is past the last word, and so no position before a gap is.
theorem Gap.position_le (h : m.Gap position found) : position ≤ UInt16.size := by
  refine Nat.le_of_not_lt fun hlt => ?_
  have hmem := List.mem_of_getElem? (h.before UInt16.size hlt)
  exact Nat.lt_irrefl _ (lt_size_of_mem_ascending hmem)

-- Behind all words there can only be the last of them.
theorem Gap.overfull (h : m.Gap UInt16.size found) : m.Overfull := by
  have hfront : m.ascending.take UInt16.size = List.range UInt16.size := by
    refine List.ext_getElem? fun i => ?_
    by_cases hi : i < UInt16.size
    · rw [List.getElem?_take_of_lt hi, h.before i hi, List.getElem?_range hi]
    · rw [List.getElem?_eq_none (by rw [List.length_take]; omega),
        List.getElem?_eq_none (by rw [List.length_range]; omega)]
  have hsplit : m.ascending = List.range UInt16.size ++ m.ascending.drop UInt16.size := by
    rw [← hfront, List.take_append_drop]
  have hlast : UInt16.size - 1 ∈ List.range UInt16.size := List.mem_range.mpr (by decide)
  have hrest (i : Nat) (hi : i ∈ m.ascending.drop UInt16.size) : i = UInt16.size - 1 := by
    have hbound := lt_size_of_mem_ascending (List.mem_of_mem_drop hi)
    have hsorted := m.pairwise_ascending
    rw [hsplit, List.pairwise_append] at hsorted
    have hle := hsorted.2.2 _ hlast i hi
    omega
  have hpos : 0 < (m.ascending.drop UInt16.size).length := by
    obtain ⟨hlength, _⟩ := List.getElem?_eq_some_iff.mp h.here
    rw [List.length_drop]
    omega
  refine ⟨_, hpos, ?_⟩
  rw [← List.eq_replicate_of_mem hrest, ← hsplit]
  exact m.perm_ascending.symm

theorem Overfull.gap (h : m.Overfull) : m.Gap UInt16.size (UInt16.size - 1) := by
  obtain ⟨again, hpos, hperm⟩ := h
  have hsorted : (List.range UInt16.size ++ List.replicate again (UInt16.size - 1)).Pairwise
      (· ≤ ·) := by
    refine List.pairwise_append.mpr ⟨List.pairwise_lt_range.imp Nat.le_of_lt,
      List.pairwise_replicate.mpr (.inr (Nat.le_refl _)), fun i hi j hj => ?_⟩
    have hi := List.mem_range.mp hi
    have hj := List.eq_of_mem_replicate hj
    omega
  have hascending := ascending_eq hperm hsorted
  refine ⟨?_, by decide, fun i hi => ?_⟩
  · rw [hascending, List.getElem?_append_right (List.length_range.le), List.length_range,
      Nat.sub_self, List.getElem?_replicate, if_pos hpos]
  · rw [hascending, List.getElem?_append_left (by rwa [List.length_range]), List.getElem?_range hi]

-- A call with the map fails on its gap as it is, and leaves nothing behind but the flag.
def ReportsGap (s : Store) (m : LiteralMap) (session : Serializer) : Prop :=
  ∃ expected found : UInt16, m.Gap expected.toNat found.toNat ∧
    Fails (writeLiteralMap s m) session (.literalIndexGap expected found)
      { session with poisoned := true }

-- A map whose gap is past the last word fails on it with the position zero.
theorem Overfull.fails (h : m.Overfull) (s : Store) (session : Serializer) :
    Fails (writeLiteralMap s m) session (.literalIndexGap 0 (UInt16.ofNat (UInt16.size - 1)))
      { session with poisoned := true } := by
  obtain ⟨position, word, hgap, hordered⟩ := exists_gap_of_not_dense h.gap.not_dense
  obtain ⟨rfl, hword⟩ := h.gap.unique hgap
  obtain rfl : word = UInt16.ofNat (UInt16.size - 1) := UInt16.toNat_inj.mp hword
  exact fails_writeLiteralMap_of_gap hordered

theorem Overfull.not_reportsGap (h : m.Overfull) (s : Store) (session : Serializer) :
    ¬ReportsGap s m session := by
  rintro ⟨expected, found, hgap, _⟩
  obtain ⟨hposition, _⟩ := h.gap.unique hgap
  exact Nat.ne_of_lt expected.toNat_lt hposition

-- A gap is reported where it is unless all words come before it.
theorem reportsGap_iff_not_overfull (hsparse : ¬m.Dense) (s : Store) (session : Serializer) :
    (ReportsGap s m session ↔ ¬m.Overfull) ∧
      (m.Overfull → m.Gap UInt16.size (UInt16.size - 1) ∧
        Fails (writeLiteralMap s m) session (.literalIndexGap 0 (UInt16.ofNat (UInt16.size - 1)))
          { session with poisoned := true }) := by
  refine ⟨⟨fun hreports hfull => hfull.not_reportsGap s session hreports, fun hfull => ?_⟩,
    fun hfull => ⟨hfull.gap, hfull.fails s session⟩⟩
  obtain ⟨position, word, hgap, hordered⟩ := exists_gap_of_not_dense hsparse
  have hlt : position < UInt16.size := by
    refine Nat.lt_of_le_of_ne hgap.position_le ?_
    rintro rfl
    exact hfull hgap.overfull
  have hposition : (UInt16.ofNat position).toNat = position := UInt16.toNat_ofNat_of_lt hlt
  exact ⟨UInt16.ofNat position, word, by rwa [hposition], fails_writeLiteralMap_of_gap hordered⟩

-- A session that comes to the literals of a program without functions and tasks.
theorem exists_session_at_literals :
    ∃ word first session bytes, Returns (writeMetadata .empty) (fresh none) word first ∧
      Returns (writeHeader .empty []) first () session ∧ Holds session .literals bytes := by
  have hids : ((.empty : SymbolTable).toList.map fun function => function.2.id).Nodup := .nil
  have hend : 4 + (SymbolTable.emission (SymbolTable.byId .empty)).bytes.length < UInt32.size := by
    rw [SymbolTable.byId_empty]
    decide
  obtain ⟨word, first, session, hmetadata, hheader, hsession⟩ :=
    exists_writeHeader_of_storable (s := .empty) hids hend (by decide)
      (List.forall_mem_nil TaskRecord.WordSized) (List.forall_mem_nil _)
  exact ⟨word, first, session, _, hmetadata, hheader, hsession⟩

-- An index that is missing, and one that is given twice.
def sparse : LiteralMap := ⟨[(.int 7, 3), (.string "a", 0), (.bool true, 3), (.float .nan, 1)]⟩

-- The first gap is where the third index should be. The second one, at the end, is not reported.
theorem reportsGap_iff_not_overfull_sparse :
    ∃ word first session, Returns (writeMetadata .empty) (fresh none) word first ∧
      Returns (writeHeader .empty []) first () session ∧ ¬sparse.Dense ∧ ¬sparse.Overfull ∧
      sparse.ascending = [0, 1, 3, 3] ∧
      Fails (writeLiteralMap .empty sparse) session (.literalIndexGap 2 3)
        { session with poisoned := true } := by
  obtain ⟨word, first, session, _, hmetadata, hheader, _⟩ := exists_session_at_literals
  have hsparse : ¬sparse.Dense := by unfold Dense; decide
  have hascending : sparse.ascending = [0, 1, 3, 3] := ascending_eq (by decide) (by decide)
  have hgap : sparse.Gap 2 3 := by
    refine ⟨by rw [hascending]; rfl, by decide, ?_⟩
    rw [hascending]
    decide
  have hfull : ¬sparse.Overfull := fun h => by cases (hgap.unique h.gap).1
  obtain ⟨expected, found, hreported, hfails⟩ :=
    (reportsGap_iff_not_overfull hsparse .empty session).1.mpr hfull
  obtain ⟨hposition, hfound⟩ := hgap.unique hreported
  obtain rfl : expected = 2 := UInt16.toNat_inj.mp hposition
  obtain rfl : found = 3 := UInt16.toNat_inj.mp hfound
  exact ⟨word, first, session, hmetadata, hheader, hsparse, hfull, hascending, hfails⟩

-- A literal of its own for every word, and one more that has the last word again.
def overfullEntries : List (Value × UInt16) :=
  (List.range (UInt16.size + 1)).map fun i =>
    (.int (Int64.ofNat i), UInt16.ofNat (min i (UInt16.size - 1)))

def overfull : LiteralMap := .collect overfullEntries

theorem unequal_overfullEntries : Unequal (overfullEntries.map Prod.fst) := by
  rw [Unequal, overfullEntries, List.map_map, List.pairwise_map]
  refine List.pairwise_lt_range.imp_of_mem fun {i j} hi hj hlt => ?_
  have hbound : UInt16.size = 65536 := rfl
  have hi := List.mem_range.mp hi
  have hj := List.mem_range.mp hj
  refine beq_eq_false_iff_ne.mpr fun heq => ?_
  have hint := congrArg Int64.toInt heq
  rw [Int64.toInt_ofNat_of_lt (by omega), Int64.toInt_ofNat_of_lt (by omega)] at hint
  omega

theorem toList_overfull : overfull.toList = overfullEntries := by
  rw [overfull, collect_eq_ofList]
  obtain ⟨_, heq⟩ | ⟨hequal, _⟩ := ofList_cases overfullEntries
  · exact heq
  · exact absurd unequal_overfullEntries hequal

theorem indices_overfull :
    indices overfull.toList = List.range UInt16.size ++ List.replicate 1 (UInt16.size - 1) := by
  rw [toList_overfull, indices, overfullEntries, List.map_map, List.range_succ, List.map_append,
    List.map_singleton]
  refine congrArg₂ (· ++ ·) ?_ rfl
  refine (List.map_congr_left fun i hi => ?_).trans (List.map_id _)
  have hi := List.mem_range.mp hi
  have hmin : min i (UInt16.size - 1) = i := Nat.min_eq_left (by omega)
  rw [Function.comp_apply, hmin]
  exact UInt16.toNat_ofNat_of_lt hi

-- The ascending indices depart from the positions where the words end, and what is reported is the
-- position zero, although the index zero is there.
theorem not_reportsGap_overfull :
    ∃ word first session, Returns (writeMetadata .empty) (fresh none) word first ∧
      Returns (writeHeader .empty []) first () session ∧ session.phase = .literals ∧
      session.poisoned = false ∧ ¬overfull.Dense ∧ overfull.Gap 65536 65535 ∧
      Fails (writeLiteralMap .empty overfull) session (.literalIndexGap 0 65535)
        { session with poisoned := true } ∧
      ¬ReportsGap .empty overfull session := by
  obtain ⟨word, first, session, _, hmetadata, hheader, hsession⟩ := exists_session_at_literals
  have hfull : overfull.Overfull := ⟨1, Nat.one_pos, indices_overfull ▸ .refl _⟩
  exact ⟨word, first, session, hmetadata, hheader, hsession.phase, hsession.poisoned,
    hfull.gap.not_dense, hfull.gap, hfull.fails .empty session, hfull.not_reportsGap .empty session⟩

end LiteralMap

end Conductor
