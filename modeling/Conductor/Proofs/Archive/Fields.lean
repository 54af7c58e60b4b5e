import Conductor.Archive.Emission
import Conductor.Archive.Reader
import Conductor.Proofs.Text.Utf8
import Mathlib.Data.List.Flatten
import Mathlib.Data.List.Forall2
import Mathlib.Data.List.Perm.Subperm

namespace Conductor.Archive

variable {α β γ : Type}

-- The reader takes the value from these bytes and nothing of what follows them.
def Reads (read : Reader α) (bytes : Bytes) (value : α) : Prop :=
  ∀ rest, read (bytes ++ rest) = .ok (value, rest)

-- A text whose number of bytes a machine word can hold.
def WordSized (text : String) : Prop := (Utf8.encode text).length < byteCapacity 8

instance (text : String) : Decidable (WordSized text) := inferInstanceAs (Decidable (_ < _))

namespace Reads

theorem pure (value : α) : Reads (pure value) [] value := fun _ => rfl

theorem bind {read : Reader α} {next : α → Reader β} {first second : Bytes} {a : α} {b : β}
    (ha : Reads read first a) (hb : Reads (next a) second b) :
    Reads (read >>= next) (first ++ second) b := by
  intro rest
  change (read (first ++ second ++ rest) >>= fun result => next result.1 result.2) = _
  rw [List.append_assoc, ha]
  exact hb rest

-- The last field of a record. What comes after it reads nothing.
theorem last {read : Reader α} {next : α → Reader β} {bytes : Bytes} {a : α} {b : β}
    (ha : Reads read bytes a) (hb : Reads (next a) [] b) : Reads (read >>= next) bytes b := by
  rw [← List.append_nil bytes]
  exact bind ha hb

theorem take (fault : Fault) (bytes : Bytes) :
    Reads (Reader.take fault bytes.length) bytes bytes := by
  intro rest
  rw [Reader.take, split?_append]

theorem number {width n : Nat} (h : n < byteCapacity width) :
    Reads (Reader.number width) (leBytes width n) n := by
  intro rest
  have htake := take .endOfField (leBytes width n) rest
  rw [length_leBytes] at htake
  change (do let result ← Reader.take .endOfField width (leBytes width n ++ rest)
             Except.ok (leNat result.1, result.2)) = _
  rw [htake]
  change Except.ok (leNat (leBytes width n), rest) = _
  rw [leNat_leBytes width n h]

theorem bool (b : Bool) : Reads Reader.bool (leBytes 1 b.toNat) b := by
  cases b
  · exact last (number (by decide)) (pure false)
  · exact last (number (by decide)) (pure true)

theorem text {s : String} (h : WordSized s) : Reads Reader.text (textBytes s) s := by
  refine bind (number h) (last (take _ _) ?_)
  rw [Utf8.decode_encode]
  exact pure s

theorem tag (t : Tag) : Reads Reader.tag (leBytes 4 t.code) t := by
  refine last (number (Nat.lt_trans t.code_lt (by decide))) ?_
  rw [Tag.ofCode?_code]
  exact pure t

theorem variant {index count : Nat} (h : index < count) (hcount : count ≤ byteCapacity 4) :
    Reads (Reader.variant count) (leBytes 4 index) index := by
  refine last (number (Nat.lt_of_lt_of_le h hcount)) ?_
  rw [if_pos h]
  exact pure index

theorem choice [DecidableEq α] {values : List α} {value : α} (h : value ∈ values)
    (hcount : values.length ≤ byteCapacity 4) :
    Reads (Reader.choice values) (leBytes 4 (values.idxOf value)) value := by
  have hindex := List.idxOf_lt_length_of_mem h
  have hvalue : values[values.idxOf value]? = some value := by
    rw [List.getElem?_eq_getElem hindex, List.getElem_idxOf hindex]
  refine last (number (Nat.lt_of_lt_of_le hindex hcount)) ?_
  rw [hvalue]
  exact pure value

theorem times {read : Reader β} {encode : α → Bytes} {items : List α} {values : List β}
    (h : List.Forall₂ (fun item value => Reads read (encode item) value) items values) :
    Reads (Reader.times read items.length) (items.flatMap encode) values := by
  induction h with
  | nil => exact pure []
  | cons hhead _ ih =>
    rw [List.flatMap_cons]
    exact bind hhead (last ih (pure _))

theorem seq {read : Reader β} {encode : α → Bytes} {items : List α} {values : List β}
    (hlength : items.length < byteCapacity 8)
    (h : List.Forall₂ (fun item value => Reads read (encode item) value) items values) :
    Reads (Reader.seq read) (leBytes 8 items.length ++ items.flatMap encode) values :=
  bind (number hlength) (times h)

end Reads

theorem length_le_length_flatMap (encode : α → Bytes) {items : List α} {item : α}
    (h : item ∈ items) : (encode item).length ≤ (items.flatMap encode).length := by
  induction items with
  | nil => cases h
  | cons head rest ih =>
    rw [List.flatMap_cons, List.length_append]
    cases List.mem_cons.mp h with
    | inl heq =>
      subst heq
      omega
    | inr hmem =>
      have hrest := ih hmem
      omega

theorem length_le_of_forall_pos (encode : α → Bytes) {items : List α}
    (h : ∀ item ∈ items, 0 < (encode item).length) :
    items.length ≤ (items.flatMap encode).length := by
  induction items with
  | nil => exact Nat.zero_le _
  | cons head rest ih =>
    have hhead := h head List.mem_cons_self
    have hrest := ih fun item hmem => h item (List.mem_cons_of_mem _ hmem)
    rw [List.flatMap_cons, List.length_append, List.length_cons]
    omega

theorem length_flatMap_le_of_subperm (encode : α → Bytes) {first second : List α}
    (h : first.Subperm second) :
    (first.flatMap encode).length ≤ (second.flatMap encode).length := by
  obtain ⟨middle, hperm, hsub⟩ := h
  rw [← (hperm.flatMap_right encode).length_eq]
  exact (hsub.flatMap encode).length_le

theorem length_flatMap_map_le {f : α → β} {encode : α → Bytes} {other : β → Bytes} {items : List α}
    (h : ∀ item ∈ items, (other (f item)).length ≤ (encode item).length) :
    ((items.map f).flatMap other).length ≤ (items.flatMap encode).length := by
  induction items with
  | nil => exact Nat.le_refl _
  | cons head rest ih =>
    obtain ⟨hhead, hrest⟩ := List.forall_mem_cons.mp h
    have hbelow := ih hrest
    simp only [List.map_cons, List.flatMap_cons, List.length_append]
    omega

-- The emission comes to no fault, and the reader takes the value from its bytes.
structure Carries (emission : Emission) (read : Reader α) (value : α) : Prop where
  unharmed : emission.fault = none
  reads : Reads read emission.bytes value

namespace Emission

theorem append_of_unharmed {first : Emission} (second : Emission) (h : first.fault = none) :
    first ++ second = { bytes := first.bytes ++ second.bytes, fault := second.fault } := by
  change append first second = _
  rw [append, h]

theorem append_assoc (first second third : Emission) :
    first ++ second ++ third = first ++ (second ++ third) := by
  change append (append first second) third = append first (append second third)
  cases hfirst : first.fault with
  | some error => simp only [append, hfirst]
  | none =>
    cases hsecond : second.fault <;> simp only [append, hfirst, hsecond, List.append_assoc]

theorem concat_append (first second : List Emission) :
    concat (first ++ second) = concat first ++ concat second := by
  induction first with
  | nil => rfl
  | cons part rest ih =>
    change part ++ concat (rest ++ second) = part ++ concat rest ++ concat second
    rw [ih, append_assoc]

theorem eq_of_unharmed {emission : Emission} (h : emission.fault = none) :
    emission = { bytes := emission.bytes } := by
  cases emission
  cases h
  rfl

theorem concat_singleton (part : Emission) : concat [part] = part := by
  change append part empty = part
  cases h : part.fault with
  | some error => simp only [append, h]
  | none =>
    simp only [append, h, empty, List.append_nil]
    exact (eq_of_unharmed h).symm

theorem concat_eq {parts : List Emission} (h : ∀ part ∈ parts, part.fault = none) :
    concat parts = { bytes := parts.flatMap Emission.bytes } := by
  induction parts with
  | nil => rfl
  | cons part rest ih =>
    have hrest := ih fun other hmem => h other (List.mem_cons_of_mem _ hmem)
    change part ++ concat rest = _
    rw [append_of_unharmed _ (h part List.mem_cons_self), hrest]
    rfl

theorem seq_eq {emit : α → Emission} {items : List α}
    (h : ∀ item ∈ items, (emit item).fault = none) :
    seq emit items =
      { bytes := leBytes 8 items.length ++ items.flatMap fun item => (emit item).bytes } := by
  change number 8 items.length ++ concat (items.map emit) = _
  rw [append_of_unharmed _ rfl, concat_eq (by simpa using h), List.flatMap_map]
  rfl

-- A sequence is as long as it has elements, if none of them is empty, and as long as each of them.
theorem length_le_length_seq (emit : α → Emission) (items : List α)
    (h : ∀ item ∈ items, (emit item).fault = none ∧ 0 < (emit item).bytes.length) :
    items.length ≤ (seq emit items).bytes.length ∧
      ∀ item ∈ items, (emit item).bytes.length ≤ (seq emit items).bytes.length := by
  rw [seq_eq fun item hmem => (h item hmem).1]
  simp only [List.length_append]
  constructor
  · have hcount := length_le_of_forall_pos (fun item => (emit item).bytes)
      fun item hmem => (h item hmem).2
    omega
  · intro item hmem
    have hitem := length_le_length_flatMap (fun item => (emit item).bytes) hmem
    omega

end Emission

namespace Carries

theorem number {width n : Nat} (h : n < byteCapacity width) :
    Carries (.number width n) (Reader.number width) n := ⟨rfl, .number h⟩

theorem bool (b : Bool) : Carries (.bool b) Reader.bool b := ⟨rfl, .bool b⟩

theorem text {s : String} (h : WordSized s) : Carries (.text s) Reader.text s := ⟨rfl, .text h⟩

theorem tag (t : Tag) : Carries (.tag t) Reader.tag t := ⟨rfl, .tag t⟩

theorem choice [DecidableEq α] {values : List α} {value : α} (h : value ∈ values)
    (hcount : values.length ≤ byteCapacity 4) :
    Carries (.choice values value) (Reader.choice values) value := ⟨rfl, .choice h hcount⟩

theorem bind {first second : Emission} {read : Reader α} {next : α → Reader β} {a : α} {b : β}
    (ha : Carries first read a) (hb : Carries second (next a) b) :
    Carries (first ++ second) (read >>= next) b := by
  rw [Emission.append_of_unharmed second ha.unharmed]
  exact ⟨hb.unharmed, ha.reads.bind hb.reads⟩

-- The fields of a record one by one.
theorem concat_nil (value : α) : Carries (.concat []) (pure value) value := ⟨rfl, .pure value⟩

theorem concat_cons {first : Emission} {rest : List Emission} {read : Reader α}
    {next : α → Reader β} {a : α} {b : β} (ha : Carries first read a)
    (hb : Carries (.concat rest) (next a) b) :
    Carries (.concat (first :: rest)) (read >>= next) b := bind ha hb

theorem last {emission : Emission} {read : Reader α} {next : α → Reader β} {a : α} {b : β}
    (ha : Carries emission read a) (hb : Reads (next a) [] b) :
    Carries emission (read >>= next) b := ⟨ha.unharmed, ha.reads.last hb⟩

theorem times {emit : α → Emission} {read : Reader β} {items : List α} {values : List β}
    (h : List.Forall₂ (fun item value => Carries (emit item) read value) items values) :
    Carries (.concat (items.map emit)) (Reader.times read items.length) values := by
  induction h with
  | nil => exact concat_nil []
  | cons hhead _ ih => exact concat_cons hhead (last ih (.pure _))

theorem seq {emit : α → Emission} {read : Reader β} {items : List α} {values : List β}
    (hlength : items.length < byteCapacity 8)
    (h : List.Forall₂ (fun item value => Carries (emit item) read value) items values) :
    Carries (.seq emit items) (Reader.seq read) values :=
  concat_cons (number hlength) (times h)

-- Elements that read back as they are.
theorem seq_self {emit : α → Emission} {read : Reader α} {items : List α}
    (hlength : items.length < byteCapacity 8) (h : ∀ item ∈ items, Carries (emit item) read item) :
    Carries (.seq emit items) (Reader.seq read) items := seq hlength (List.forall₂_same.mpr h)

end Carries

end Conductor.Archive
