import Conductor.Proofs.LiteralPool

namespace Conductor.LiteralPool

variable {p q : LiteralPool} {s : Store} {v w : Value} {index : UInt16}
  {calls : List (Value × UInt16)}

-- Calls by the literals they were made for, with what they came to.
abbrev Log := List (Value × Except EncodeError UInt16)

-- Makes the calls one by one, whatever becomes of them. Each literal belongs to the store as it was
-- then.
def run (p : LiteralPool) : List (Store × Value) → Log × LiteralPool
  | [] => ([], p)
  | (s, v) :: rest =>
    let (result, after) := p.intern s v
    let (log, last) := run after rest
    ((v, result) :: log, last)

-- The calls that returned an index.
def returned (log : Log) : List (Value × UInt16) :=
  log.filterMap fun entry => entry.2.toOption.map fun index => (entry.1, index)

theorem mem_returned_iff {log : Log} : (v, index) ∈ returned log ↔ (v, .ok index) ∈ log := by
  rw [returned, List.mem_filterMap]
  constructor
  · rintro ⟨⟨w, result⟩, hmem, hresult⟩
    cases result with
    | ok i =>
      cases hresult
      exact hmem
    | error error => cases hresult
  · intro hmem
    exact ⟨_, hmem, rfl⟩

theorem size_of_push (h : q.values = p.values.push v) : q.size = p.size + 1 := by
  rw [size, h, Array.size_push, size]

theorem eq_of_intern_eq_error {error : EncodeError} (h : p.intern s v = (.error error, q)) :
    q = p := by
  obtain ⟨_, hcall⟩ | ⟨_, ⟨_, _, hcall⟩ | ⟨_, _, _, hcall, _⟩ | ⟨_, _, hcall⟩⟩ :=
    p.intern_cases s v <;> rw [hcall] at h
  · exact (Prod.mk.inj h).2.symm
  · cases h
  · cases h
  · exact (Prod.mk.inj h).2.symm

theorem get?_run {i : Nat} (h : p.get? i = some w) (calls : List (Store × Value)) :
    (p.run calls).2.get? i = some w := by
  induction calls generalizing p with
  | nil => exact h
  | cons call rest ih => exact ih (getElem?_intern h)

theorem Interned.run (h : Interned p calls) (more : List (Store × Value)) :
    Interned (p.run more).2 (calls ++ returned (p.run more).1) := by
  induction more generalizing p calls with
  | nil =>
    rw [LiteralPool.run, returned, List.filterMap_nil, List.append_nil]
    exact h
  | cons call rest ih =>
    obtain ⟨s, v⟩ := call
    cases hcall : p.intern s v with
    | mk result after =>
      rw [LiteralPool.run, hcall]
      cases result with
      | ok index =>
        have hrest := ih (h.call hcall)
        rw [List.append_assoc] at hrest
        exact hrest
      | error error =>
        obtain rfl := eq_of_intern_eq_error hcall
        exact ih h

section Order

variable {α : Type} [DecidableEq α]

-- Only what was not there before counts.
theorem eraseDups_concat_of_mem {as : List α} {a : α} (h : a ∈ as) :
    (as ++ [a]).eraseDups = as.eraseDups := by
  have hnone : [a].removeAll as = [] := by simp [List.removeAll, h]
  rw [List.eraseDups_append, hnone, List.eraseDups_nil, List.append_nil]

theorem eraseDups_concat_of_notMem {as : List α} {a : α} (h : a ∉ as) :
    (as ++ [a]).eraseDups = as.eraseDups ++ [a] := by
  have hone : [a].removeAll as = [a] := by simp [List.removeAll, h]
  rw [List.eraseDups_append, hone]
  rfl

end Order

namespace Interned

-- The place of a literal is its index, and no other index is.
theorem getElem?_iff (h : Interned p calls) :
    p.values[index.toNat]? = some v ↔ (v, index) ∈ calls := by
  refine ⟨fun hget => ?_, fun hmem => h.getElem?_of_mem _ hmem⟩
  obtain ⟨_, other, hmem⟩ := h.exists_call_of_mem v (Array.mem_of_getElem? hget)
  have hindex := (p.indexed v index).mpr hget
  rw [(p.indexed v other).mpr (h.getElem?_of_mem _ hmem)] at hindex
  cases hindex
  exact hmem

theorem index_eq_iff (h : Interned p calls) {i j : UInt16} (hv : (v, i) ∈ calls)
    (hw : (w, j) ∈ calls) : i = j ↔ v = w := by
  have hi := h.getElem?_iff.mpr hv
  have hj := h.getElem?_iff.mpr hw
  constructor
  · rintro rfl
    exact Option.some.inj (hi.symm.trans hj)
  · rintro rfl
    exact Option.some.inj (((p.indexed v i).mpr hi).symm.trans ((p.indexed v j).mpr hj))

theorem toNat_lt_size (h : Interned p calls) (hmem : (v, index) ∈ calls) : index.toNat < p.size :=
  (Array.getElem?_eq_some_iff.mp (h.getElem?_iff.mpr hmem)).1

theorem mem_values_iff (h : Interned p calls) : v ∈ p.values ↔ ∃ index, (v, index) ∈ calls := by
  constructor
  · exact fun hmem => (h.exists_call_of_mem v hmem).2
  · rintro ⟨index, hmem⟩
    exact Array.mem_of_getElem? (h.getElem?_iff.mpr hmem)

-- The pool lists the literals as they were first met, and their indices are those of the list.
theorem eraseDups_eq (h : Interned p calls) :
    (calls.map Prod.fst).eraseDups = p.values.toList ∧
      (calls.map Prod.snd).eraseDups = (List.range p.size).map UInt16.ofNat := by
  induction h with
  | empty => exact ⟨rfl, rfl⟩
  | @call p q calls s v index h hcall ih =>
    obtain ⟨hliterals, hindices⟩ := ih
    rw [List.map_append, List.map_append, List.map_singleton, List.map_singleton]
    obtain ⟨_, hrun⟩ | ⟨_, ⟨_, hget, hrun⟩ | ⟨hnew, hroom, _, hrun, hvalues⟩ | ⟨_, _, hrun⟩⟩ :=
      p.intern_cases s v <;> rw [hrun] at hcall
    · cases hcall
    · cases hcall
      have hmem := h.getElem?_iff.mp hget
      rw [eraseDups_concat_of_mem (List.mem_map_of_mem hmem),
        eraseDups_concat_of_mem (List.mem_map_of_mem hmem)]
      exact ⟨hliterals, hindices⟩
    · cases hcall
      have hword : (UInt16.ofNat p.size).toNat = p.size := UInt16.toNat_ofNat_of_lt hroom
      have hliteral : v ∉ calls.map Prod.fst := by
        intro hmem
        obtain ⟨⟨_, i⟩, hcall, rfl⟩ := List.mem_map.mp hmem
        exact hnew (h.mem_values_iff.mpr ⟨i, hcall⟩)
      have hindex : UInt16.ofNat p.size ∉ calls.map Prod.snd := by
        intro hmem
        obtain ⟨call, hcall, hi⟩ := List.mem_map.mp hmem
        have hlt : call.2.toNat < p.size := h.toNat_lt_size hcall
        rw [hi, hword] at hlt
        exact Nat.lt_irrefl _ hlt
      rw [eraseDups_concat_of_notMem hliteral, eraseDups_concat_of_notMem hindex, hliterals,
        hindices, size_of_push hvalues, hvalues, Array.toList_push, List.range_succ,
        List.map_append, List.map_singleton]
      exact ⟨rfl, rfl⟩
    · cases hcall

end Interned

-- What a pool owes to the calls that were made on it.
structure Deals (log : Log) (p : LiteralPool) : Prop where
  -- One index is one literal: of one kind, and with the same text, number, bits or address.
  index_eq_iff : ∀ v w i j, (v, .ok i) ∈ log → (w, .ok j) ∈ log → (i = j ↔ v = w)
  -- The indices, each where it was first returned, are the numbers from zero on.
  indices : ((returned log).map Prod.snd).eraseDups = (List.range p.size).map UInt16.ofNat
  -- The literals stand in the order in which they were first met.
  literals : ((returned log).map Prod.fst).eraseDups = p.values.toList
  -- An index keeps its literal, whatever is called afterwards.
  held : ∀ v i, (v, .ok i) ∈ log → ∀ calls, (p.run calls).2.get? i.toNat = some v
  void : ∀ s, p.intern s .void = (.error (.unrepresentable p.size .void), p)
  known : ∀ s v i, (v, .ok i) ∈ log → p.intern s v = (.ok i, p)
  -- A new literal gets the next index, or finds a literal under every word.
  new : ∀ s v, v ≠ .void → (∀ i, (v, .ok i) ∉ log) →
    p.size < UInt16.size ∧
        (∃ q, p.intern s v = (.ok (UInt16.ofNat p.size), q) ∧ q.size = p.size + 1) ∨
      p.size = UInt16.size ∧ p.intern s v = (.error (.tooMany .literals (p.size + 1)), p)

-- Any calls on an empty pool deal out indices one by one, to each literal its own, and one that
-- fails leaves no trace.
theorem deals_run (calls : List (Store × Value)) :
    Deals (run .empty calls).1 (run .empty calls).2 := by
  have hpool := Interned.empty.run calls
  rw [List.nil_append] at hpool
  generalize (run .empty calls).1 = log at hpool
  generalize (run .empty calls).2 = p at hpool
  have hcalled {v : Value} {i : UInt16} (hmem : (v, .ok i) ∈ log) :
      p.values[i.toNat]? = some v := hpool.getElem?_iff.mpr (mem_returned_iff.mpr hmem)
  obtain ⟨hliterals, hindices⟩ := hpool.eraseDups_eq
  refine ⟨fun v w i j hv hw => ?_, hindices, hliterals, fun v i hmem calls => ?_, fun s => rfl,
    fun s v i hmem => ?_, fun s v hvoid hnew => ?_⟩
  · exact hpool.index_eq_iff (mem_returned_iff.mpr hv) (mem_returned_iff.mpr hw)
  · exact get?_run (hcalled hmem) calls
  · obtain ⟨hvoid, _⟩ := hpool.exists_call_of_mem v (Array.mem_of_getElem? (hcalled hmem))
    exact intern_of_getElem? hvoid (hcalled hmem)
  · obtain ⟨hv, _⟩ | ⟨_, ⟨i, hget, _⟩ | ⟨_, hroom, q, hpushed, hvalues⟩ | ⟨_, hfull, hrefused⟩⟩ :=
      p.intern_cases s v
    · exact absurd hv hvoid
    · exact absurd (mem_returned_iff.mp (hpool.getElem?_iff.mp hget)) (hnew i)
    · exact .inl ⟨hroom, q, hpushed, size_of_push hvalues⟩
    · exact .inr ⟨hfull, hrefused⟩

end Conductor.LiteralPool
