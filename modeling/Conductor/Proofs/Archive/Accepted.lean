import Conductor.Proofs.Archive.Tree
import Conductor.Proofs.Related

namespace Conductor

variable {α β : Type}

-- A reading in two parts, the second from where the first one ends.
theorem exists_of_bind_eq_ok {ε : Type} {read : StateT Bytes (Except ε) α}
    {next : α → StateT Bytes (Except ε) β} {bytes : Bytes} {result : β × Bytes}
    (h : (read >>= next) bytes = .ok result) :
    ∃ a rest, read bytes = .ok (a, rest) ∧ next a rest = .ok result := by
  change (read bytes >>= fun first => next first.1 first.2) = _ at h
  obtain ⟨first, hread, hnext⟩ := exists_of_bind_ok h
  exact ⟨first.1, first.2, hread, hnext⟩

namespace Archive

-- What the reader makes of the front of any bytes is related to the part that it takes.
def Accepts (read : Reader α) (P : α → Bytes → Prop) : Prop :=
  ∀ bytes a rest, read bytes = .ok (a, rest) → ∃ front, bytes = front ++ rest ∧ P a front

namespace Accepts

variable {read : Reader α} {P Q : α → Bytes → Prop}

theorem pure {a : α} (h : P a []) : Accepts (pure a) P := by
  intro bytes b rest hread
  cases hread
  exact ⟨[], rfl, h⟩

theorem throw (fault : Fault) : Accepts (throw fault) P := fun _ _ _ hread => by cases hread

theorem bind {next : α → Reader β} {R : β → Bytes → Prop} (ha : Accepts read P)
    (hb : ∀ a first, P a first → Accepts (next a) fun b second => R b (first ++ second)) :
    Accepts (read >>= next) R := by
  intro bytes b rest hread
  obtain ⟨a, middle, hfirst, hnext⟩ := exists_of_bind_eq_ok hread
  obtain ⟨first, rfl, hP⟩ := ha _ _ _ hfirst
  obtain ⟨second, rfl, hR⟩ := hb _ _ hP _ _ _ hnext
  exact ⟨first ++ second, by rw [List.append_assoc], hR⟩

theorem imp (h : Accepts read P) (himp : ∀ a front, P a front → Q a front) : Accepts read Q := by
  intro bytes a rest hread
  obtain ⟨front, hbytes, hP⟩ := h _ _ _ hread
  exact ⟨front, hbytes, himp a front hP⟩

-- A reader takes the same part of the bytes whatever is said about it.
theorem and (hP : Accepts read P) (hQ : Accepts read Q) :
    Accepts read fun a front => P a front ∧ Q a front := by
  intro bytes a rest hread
  obtain ⟨front, hbytes, hp⟩ := hP _ _ _ hread
  obtain ⟨other, hother, hq⟩ := hQ _ _ _ hread
  obtain rfl := List.append_cancel_right (hbytes.symm.trans hother)
  exact ⟨front, hbytes, hp, hq⟩

theorem take (fault : Fault) (n : Nat) :
    Accepts (Reader.take fault n) fun bytes front => bytes = front ∧ bytes.length = n := by
  intro bytes front rest hread
  rw [Reader.take] at hread
  cases hsplit : split? n bytes with
  | none =>
    rw [hsplit] at hread
    cases hread
  | some result =>
    rw [hsplit] at hread
    cases hread
    obtain ⟨hbytes, hlength⟩ := append_of_split? hsplit
    exact ⟨front, hbytes, rfl, hlength⟩

theorem number (width : Nat) :
    Accepts (Reader.number width) fun n front =>
      n < byteCapacity width ∧ front = leBytes width n := by
  refine bind (take .endOfField width) fun bytes front h => pure ?_
  obtain ⟨rfl, rfl⟩ := h
  rw [List.append_nil]
  exact ⟨leNat_lt bytes, (leBytes_leNat bytes).symm⟩

theorem bool : Accepts Reader.bool fun b front => front = leBytes 1 b.toNat := by
  refine bind (number 1) fun n word hword => ?_
  obtain ⟨_, rfl⟩ := hword
  split
  · exact pure (List.append_nil _)
  · exact pure (List.append_nil _)
  · exact throw _

theorem text : Accepts Reader.text fun s front => WordSized s ∧ front = textBytes s := by
  refine bind (number 8) fun n word hword => bind (take _ _) fun bytes front h => ?_
  obtain ⟨hn, rfl⟩ := hword
  obtain ⟨rfl, rfl⟩ := h
  cases hdecode : Utf8.decode bytes with
  | error fault => exact throw _
  | ok s =>
    obtain rfl := Utf8.encode_of_decode hdecode
    refine pure ⟨hn, ?_⟩
    rw [List.append_nil]
    rfl

theorem text_wordSized : Accepts Reader.text fun s _ => WordSized s := text.imp fun _ _ h => h.1

theorem tag : Accepts Reader.tag fun t front => front = leBytes 4 t.code := by
  refine bind (number 4) fun code word hword => ?_
  obtain ⟨_, rfl⟩ := hword
  cases htag : Tag.ofCode? code with
  | none => exact throw _
  | some t =>
    obtain rfl := Tag.code_of_ofCode? htag
    exact pure (List.append_nil _)

theorem variant (count : Nat) : Accepts (Reader.variant count) fun index front =>
    index < count ∧ front = leBytes 4 index := by
  refine bind (number 4) fun index word hword => ?_
  obtain ⟨_, rfl⟩ := hword
  split
  · exact pure ⟨‹index < count›, List.append_nil _⟩
  · exact throw _

theorem choice (values : List α) : Accepts (Reader.choice values) fun _ _ => True := by
  refine bind (number 4) fun index _ _ => ?_
  split
  · exact pure trivial
  · exact throw _

theorem times (h : Accepts read P) (n : Nat) :
    Accepts (Reader.times read n) fun items front =>
      items.length = n ∧ ∃ fronts, List.Forall₂ P items fronts ∧ front = fronts.flatten := by
  induction n with
  | zero => exact pure ⟨rfl, [], .nil, rfl⟩
  | succ n ih =>
    refine bind h fun head first hhead => bind ih fun tail second htail => pure ?_
    obtain ⟨hlength, fronts, hfronts, rfl⟩ := htail
    refine ⟨congrArg Nat.succ hlength, first :: fronts, .cons hhead hfronts, ?_⟩
    rw [List.append_nil, List.flatten_cons]

theorem seq (h : Accepts read P) :
    Accepts (Reader.seq read) fun items front => items.length < byteCapacity 8 ∧
      ∃ fronts, List.Forall₂ P items fronts ∧ front = leBytes 8 items.length ++ fronts.flatten := by
  refine bind (number 8) fun n word hword => (times h n).imp fun items front hitems => ?_
  obtain ⟨hn, rfl⟩ := hword
  obtain ⟨rfl, fronts, hfronts, rfl⟩ := hitems
  exact ⟨hn, fronts, hfronts, rfl⟩

section Elements

variable {W : α → Prop} {encode : α → Bytes}

theorem forall_mem_of_forall₂ {items : List α} {fronts : List Bytes}
    (h : List.Forall₂ (fun item _ => W item) items fronts) : ∀ item ∈ items, W item := by
  induction h with
  | nil => exact List.forall_mem_nil _
  | cons hhead _ ih => exact List.forall_mem_cons.mpr ⟨hhead, ih⟩

-- Elements of which each meets a condition.
theorem times_forall (h : Accepts read fun a _ => W a) (n : Nat) :
    Accepts (Reader.times read n) fun items _ => items.length = n ∧ ∀ item ∈ items, W item :=
  (times h n).imp fun _ _ ⟨hlength, _, hfronts, _⟩ => ⟨hlength, forall_mem_of_forall₂ hfronts⟩

theorem seq_forall (h : Accepts read fun a _ => W a) :
    Accepts (Reader.seq read) fun items _ =>
      items.length < byteCapacity 8 ∧ ∀ item ∈ items, W item :=
  (seq h).imp fun _ _ ⟨hlength, _, hfronts, _⟩ => ⟨hlength, forall_mem_of_forall₂ hfronts⟩

-- Elements that take no other bytes than their own.
theorem seq_encode (h : Accepts read fun a front => front = encode a) :
    Accepts (Reader.seq read) fun items front =>
      front = leBytes 8 items.length ++ items.flatMap encode := by
  refine (seq h).imp fun items front ⟨_, fronts, hfronts, hfront⟩ => ?_
  have hmap : items.map encode = fronts := by
    rw [← List.forall₂_eq_eq_eq, List.forall₂_map_left_iff]
    exact hfronts.imp fun _ _ => Eq.symm
  rw [hfront, ← hmap, List.flatMap_def]

end Elements

end Accepts

end Archive

namespace Archived

open Archive

theorem accepts_seq_nodes {read : Reader Archived}
    (h : Accepts read fun tree front => tree.WordSized ∧ front = tree.encode) :
    Accepts (Reader.seq read) fun nodes front =>
      (nodes.length < byteCapacity 8 ∧ ∀ node ∈ nodes, node.WordSized) ∧
        front = leBytes 8 nodes.length ++ encodeAll nodes := by
  have hencode := Accepts.seq_encode (h.imp fun _ _ h => h.2)
  simp only [← encodeAll_eq] at hencode
  exact (Accepts.seq_forall (h.imp fun _ _ h => h.1)).and hencode

theorem accepts_seq_entries {read : Reader Archived}
    (h : Accepts read fun tree front => tree.WordSized ∧ front = tree.encode) :
    Accepts (Reader.seq do return (← Reader.text, ← read)) fun entries front =>
      (entries.length < byteCapacity 8 ∧
        ∀ entry ∈ entries, Archive.WordSized entry.1 ∧ entry.2.WordSized) ∧
          front = leBytes 8 entries.length ++ encodeEntries entries := by
  have hentry : Accepts (do return (← Reader.text, ← read)) fun (entry : String × Archived) front =>
      (Archive.WordSized entry.1 ∧ entry.2.WordSized) ∧ front = encodeEntry entry := by
    refine .bind .text fun key _ hkey => .bind h fun node _ hnode => .pure ⟨⟨hkey.1, hnode.1⟩, ?_⟩
    rw [hkey.2, hnode.2, List.append_nil, encodeEntry]
  have hencode := Accepts.seq_encode (hentry.imp fun _ _ h => h.2)
  simp only [← encodeEntries_eq] at hencode
  exact (Accepts.seq_forall (hentry.imp fun _ _ h => h.1)).and hencode

theorem accepts_encodeWithin (bound : Bytes) :
    Accepts (decodeWithin bound) fun tree front => tree.WordSized ∧ front = tree.encode := by
  induction bound with
  | nil => exact .throw _
  | cons _ bound ih =>
    refine .bind (.variant 7) fun kind word hkind => ?_
    obtain ⟨hlt, rfl⟩ := hkind
    split
    · exact .pure ⟨.void, List.append_nil _⟩
    · refine .bind .bool fun b _ hb => .pure ⟨.bool b, ?_⟩
      rw [hb, List.append_nil, encode]
    · refine .bind (.number 8) fun n _ hn => .pure ⟨.int _, ?_⟩
      have hword : (UInt64.ofNat n).toInt64.toUInt64.toNat = n := UInt64.toNat_ofNat_of_lt hn.1
      rw [hn.2, List.append_nil, encode, hword]
    · refine .bind (.number 8) fun n _ hn => .pure ⟨.float _, ?_⟩
      have hword : (UInt64.ofNat n).toNat = n := UInt64.toNat_ofNat_of_lt hn.1
      rw [hn.2, List.append_nil, encode, hword]
    · refine .bind .text fun s _ hs => .pure ⟨.string hs.1, ?_⟩
      rw [hs.2, List.append_nil, encode]
    · refine .bind .tag fun element _ helement =>
        .bind (accepts_seq_nodes ih) fun sample _ hsample =>
        .bind (accepts_seq_nodes ih) fun items _ hitems => .pure ⟨?_, ?_⟩
      · exact .list hsample.1.1 hitems.1.1 hsample.1.2 hitems.1.2
      · rw [helement, hsample.2, hitems.2, List.append_nil, encode]
        simp only [List.append_assoc]
    · have hmap : kind = 6 := by grind
      refine .bind .tag fun key _ hkey => .bind .tag fun element _ helement =>
        .bind (accepts_seq_nodes ih) fun sample _ hsample =>
        .bind (accepts_seq_entries ih) fun entries _ hentries => .pure ⟨?_, ?_⟩
      · exact .map hsample.1.1 hentries.1.1 hsample.1.2
          (fun entry hmem => (hentries.1.2 entry hmem).1)
          fun entry hmem => (hentries.1.2 entry hmem).2
      · rw [hmap, hkey, helement, hsample.2, hentries.2, List.append_nil, encode]
        simp only [List.append_assoc]

-- A tree is read from the bytes that it is written as.
theorem accepts_encode : Accepts decode fun tree front => tree.WordSized ∧ front = tree.encode :=
  fun bytes => accepts_encodeWithin bytes bytes

theorem accepts_decode : Accepts decode fun tree _ => tree.WordSized :=
  accepts_encode.imp fun _ _ h => h.1

end Archived

end Conductor
