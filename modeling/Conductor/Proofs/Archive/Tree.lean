import Conductor.Archive.Tree
import Conductor.Proofs.Archive.Fields

namespace Conductor.Archived

open Archive

-- Induction over trees, with the hypothesis for every node of a sequence.
@[elab_as_elim]
theorem ind {P : Archived → Prop} (void : P void) (bool : ∀ b, P (bool b)) (int : ∀ n, P (int n))
    (float : ∀ x, P (float x)) (string : ∀ s, P (string s))
    (list : ∀ element sample items, (∀ node ∈ sample, P node) → (∀ node ∈ items, P node) →
      P (list element sample items))
    (map : ∀ key element sample entries, (∀ node ∈ sample, P node) →
      (∀ entry ∈ entries, P entry.2) → P (map key element sample entries))
    (tree : Archived) : P tree :=
  match tree with
  | .void => void
  | .bool b => bool b
  | .int n => int n
  | .float x => float x
  | .string s => string s
  | .list element sample items =>
    list element sample items
      (fun node _ => ind void bool int float string list map node)
      (fun node _ => ind void bool int float string list map node)
  | .map key element sample entries =>
    map key element sample entries
      (fun node _ => ind void bool int float string list map node)
      (fun entry _ => ind void bool int float string list map entry.2)
termination_by tree
decreasing_by
  · have := List.sizeOf_lt_of_mem ‹node ∈ sample›
    simp only [Archived.list.sizeOf_spec]
    omega
  · have := List.sizeOf_lt_of_mem ‹node ∈ items›
    simp only [Archived.list.sizeOf_spec]
    omega
  · have := List.sizeOf_lt_of_mem ‹node ∈ sample›
    simp only [Archived.map.sizeOf_spec]
    omega
  · have := List.sizeOf_lt_of_mem ‹entry ∈ entries›
    cases entry
    simp only [Archived.map.sizeOf_spec, Prod.mk.sizeOf_spec] at this ⊢
    omega

-- Every text and every sequence of the tree has a length that a machine word can hold.
inductive WordSized : Archived → Prop
  | void : WordSized .void
  | bool (b : Bool) : WordSized (.bool b)
  | int (n : Int64) : WordSized (.int n)
  | float (x : Double) : WordSized (.float x)
  | string {s : String} (h : Archive.WordSized s) : WordSized (.string s)
  | list {element : Tag} {sample items : List Archived}
      (hsample : sample.length < byteCapacity 8) (hitems : items.length < byteCapacity 8)
      (hsamples : ∀ node ∈ sample, WordSized node) (hnodes : ∀ node ∈ items, WordSized node) :
      WordSized (.list element sample items)
  | map {key element : Tag} {sample : List Archived} {entries : List (String × Archived)}
      (hsample : sample.length < byteCapacity 8) (hentries : entries.length < byteCapacity 8)
      (hsamples : ∀ node ∈ sample, WordSized node)
      (hkeys : ∀ entry ∈ entries, Archive.WordSized entry.1)
      (hnodes : ∀ entry ∈ entries, WordSized entry.2) :
      WordSized (.map key element sample entries)

theorem encodeAll_eq (nodes : List Archived) : encodeAll nodes = nodes.flatMap encode := by
  induction nodes with
  | nil => rfl
  | cons node rest ih => rw [encodeAll, ih, List.flatMap_cons]

def encodeEntry (entry : String × Archived) : Bytes := textBytes entry.1 ++ encode entry.2

theorem encodeEntries_eq (entries : List (String × Archived)) :
    encodeEntries entries = entries.flatMap encodeEntry := by
  induction entries with
  | nil => rfl
  | cons entry rest ih => rw [encodeEntries, ih, List.flatMap_cons, encodeEntry]

theorem exists_inner_of_length_le {tree : Archived} {bound : Bytes}
    (h : tree.encode.length ≤ bound.length) : ∃ byte inner, bound = byte :: inner := by
  cases bound with
  | nil => cases tree <;> simp [encode] at h
  | cons byte inner => exact ⟨byte, inner, rfl⟩

theorem reads_seq_nodes {read : Reader Archived} {nodes : List Archived}
    (hlength : nodes.length < byteCapacity 8)
    (h : ∀ node ∈ nodes, Reads read node.encode node) :
    Reads (Reader.seq read) (leBytes 8 nodes.length ++ encodeAll nodes) nodes := by
  rw [encodeAll_eq]
  exact .seq hlength (List.forall₂_same.mpr h)

theorem reads_seq_entries {read : Reader Archived} {entries : List (String × Archived)}
    (hlength : entries.length < byteCapacity 8)
    (hkeys : ∀ entry ∈ entries, Archive.WordSized entry.1)
    (h : ∀ entry ∈ entries, Reads read entry.2.encode entry.2) :
    Reads (Reader.seq do return (← Reader.text, ← read))
      (leBytes 8 entries.length ++ encodeEntries entries) entries := by
  rw [encodeEntries_eq]
  refine .seq hlength (List.forall₂_same.mpr fun entry hmem => ?_)
  exact (Reads.text (hkeys entry hmem)).bind ((h entry hmem).last (.pure _))

-- A bound as long as the bytes of a tree is enough for its nesting.
theorem reads_decodeWithin {tree : Archived} (h : tree.WordSized) {bound : Bytes}
    (hbound : tree.encode.length ≤ bound.length) :
    Reads (decodeWithin bound) tree.encode tree := by
  induction tree using ind generalizing bound with
  | void =>
    obtain ⟨_, inner, rfl⟩ := exists_inner_of_length_le hbound
    exact (Reads.variant (by decide) (by decide)).last (.pure _)
  | bool b =>
    obtain ⟨_, inner, rfl⟩ := exists_inner_of_length_le hbound
    exact (Reads.variant (by decide) (by decide)).bind ((Reads.bool b).last (.pure _))
  | int n =>
    obtain ⟨_, inner, rfl⟩ := exists_inner_of_length_le hbound
    refine (Reads.variant (by decide) (by decide)).bind ((Reads.number n.toUInt64.toNat_lt).last ?_)
    rw [UInt64.ofNat_toNat, Int64.toInt64_toUInt64]
    exact .pure _
  | float x =>
    obtain ⟨_, inner, rfl⟩ := exists_inner_of_length_le hbound
    refine (Reads.variant (by decide) (by decide)).bind ((Reads.number x.bits.toNat_lt).last ?_)
    rw [UInt64.ofNat_toNat]
    exact .pure _
  | string s =>
    obtain ⟨_, inner, rfl⟩ := exists_inner_of_length_le hbound
    cases h with
    | string hs =>
      exact (Reads.variant (by decide) (by decide)).bind ((Reads.text hs).last (.pure _))
  | list element sample items ihsample ihitems =>
    obtain ⟨_, inner, rfl⟩ := exists_inner_of_length_le hbound
    cases h with
    | list hsample hitems hsamples hnodes =>
      simp only [encode, encodeAll_eq, List.length_append, length_leBytes,
        List.length_cons] at hbound
      have hsampleBytes : Reads (Reader.seq (decodeWithin inner)) _ sample :=
        reads_seq_nodes hsample fun node hmem => ihsample node hmem (hsamples node hmem) (by
          have := length_le_length_flatMap encode hmem
          omega)
      have hitemBytes : Reads (Reader.seq (decodeWithin inner)) _ items :=
        reads_seq_nodes hitems fun node hmem => ihitems node hmem (hnodes node hmem) (by
          have := length_le_length_flatMap encode hmem
          omega)
      rw [encode, List.append_assoc, List.append_assoc]
      exact (Reads.variant (by decide) (by decide)).bind
        ((Reads.tag element).bind (hsampleBytes.bind (hitemBytes.last (.pure _))))
  | map key element sample entries ihsample ihentries =>
    obtain ⟨_, inner, rfl⟩ := exists_inner_of_length_le hbound
    cases h with
    | map hsample hentries hsamples hkeys hnodes =>
      simp only [encode, encodeAll_eq, encodeEntries_eq, List.length_append, length_leBytes,
        List.length_cons] at hbound
      have hsampleBytes : Reads (Reader.seq (decodeWithin inner)) _ sample :=
        reads_seq_nodes hsample fun node hmem => ihsample node hmem (hsamples node hmem) (by
          have := length_le_length_flatMap encode hmem
          omega)
      have hentryBytes :
          Reads (Reader.seq do return (← Reader.text, ← decodeWithin inner)) _ entries :=
        reads_seq_entries hentries hkeys fun entry hmem =>
          ihentries entry hmem (hnodes entry hmem) (by
          have := length_le_length_flatMap encodeEntry hmem
          simp only [encodeEntry, List.length_append] at this
          omega)
      rw [encode, List.append_assoc, List.append_assoc, List.append_assoc]
      exact (Reads.variant (by decide) (by decide)).bind ((Reads.tag key).bind
        ((Reads.tag element).bind (hsampleBytes.bind (hentryBytes.last (.pure _)))))

-- A tree reads back from the front of any bytes that begin with its own.
theorem reads_decode {tree : Archived} (h : tree.WordSized) : Reads decode tree.encode tree :=
  fun rest => reads_decodeWithin h (by simp) rest

end Conductor.Archived
