import Conductor.LiteralPool
import Conductor.Proofs.Artifact.Sections

namespace Conductor.LiteralPool

open Archive Serializer

variable {p q : LiteralPool} {s t : Store} {v : Value} {index : UInt16}

theorem intern_of_getElem? (hvoid : v.isVoid = false) (h : p.values[index.toNat]? = some v) :
    p.intern s v = (.ok index, p) := by
  have hfound := (p.indexed v index).mpr h
  rw [intern, hvoid, if_neg Bool.false_ne_true]
  split
  · rename_i found hsome
    rw [hfound] at hsome
    cases hsome
    rfl
  · rename_i hnone
    rw [hfound] at hnone
    cases hnone

theorem indices_of_notMem (h : v ∉ p.values) : p.indices[v]? = none := by
  cases hfound : p.indices[v]? with
  | none => rfl
  | some index => exact absurd (Array.mem_of_getElem? ((p.indexed v index).mp hfound)) h

theorem exists_intern_of_notMem (hvoid : v.isVoid = false) (h : v ∉ p.values)
    (hsize : p.size < UInt16.size) :
    ∃ q, p.intern s v = (.ok (UInt16.ofNat p.size), q) ∧ q.values = p.values.push v := by
  have hfresh := indices_of_notMem h
  rw [intern, hvoid, if_neg Bool.false_ne_true]
  split
  · rename_i found hsome
    rw [hfresh] at hsome
    cases hsome
  · rw [size] at hsize
    rw [dif_pos hsize]
    exact ⟨_, rfl, rfl⟩

theorem intern_of_full (hvoid : v.isVoid = false) (h : v ∉ p.values)
    (hfull : p.size = UInt16.size) :
    p.intern s v = (.error (.tooMany .literals (p.size + 1)), p) := by
  have hfresh := indices_of_notMem h
  rw [intern, hvoid, if_neg Bool.false_ne_true]
  split
  · rename_i found hsome
    rw [hfresh] at hsome
    cases hsome
  · rw [size] at hfull
    rw [dif_neg (Nat.not_lt.mpr hfull.ge)]

-- How a call ends: void has no index, a literal of the pool has one, and a new one gets the next if
-- there is a word for it.
theorem intern_cases (p : LiteralPool) (s : Store) (v : Value) :
    v = .void ∧ p.intern s v = (.error (.unrepresentable p.size .void), p) ∨
    v.isVoid = false ∧
      ((∃ index : UInt16, p.values[index.toNat]? = some v ∧ p.intern s v = (.ok index, p)) ∨
      v ∉ p.values ∧ p.size < UInt16.size ∧
        (∃ q, p.intern s v = (.ok (UInt16.ofNat p.size), q) ∧ q.values = p.values.push v) ∨
      v ∉ p.values ∧ p.size = UInt16.size ∧
        p.intern s v = (.error (.tooMany .literals (p.size + 1)), p)) := by
  cases hvoid : v.isVoid with
  | true =>
    cases v with
    | void => exact .inl ⟨rfl, rfl⟩
    | _ => cases hvoid
  | false =>
    refine .inr ⟨rfl, ?_⟩
    by_cases hmem : v ∈ p.values
    · obtain ⟨i, hi, hget⟩ := Array.getElem_of_mem hmem
      have hword : (UInt16.ofNat i).toNat = i :=
        UInt16.toNat_ofNat_of_lt (Nat.lt_of_lt_of_le hi p.complete)
      have hplace : p.values[(UInt16.ofNat i).toNat]? = some v := by
        rw [hword, Array.getElem?_eq_getElem hi, hget]
      exact .inl ⟨_, hplace, intern_of_getElem? hvoid hplace⟩
    · obtain hfull | hroom := Nat.eq_or_lt_of_le p.complete
      · exact .inr (.inr ⟨hmem, hfull, intern_of_full hvoid hmem hfull⟩)
      · exact .inr (.inl ⟨hmem, hroom, exists_intern_of_notMem hvoid hmem hroom⟩)

-- A call that succeeds finds its literal in the pool or puts it last.
theorem values_of_intern_eq_ok (h : p.intern s v = (.ok index, q)) :
    v.isVoid = false ∧ q.values[index.toNat]? = some v ∧
      (q.values = p.values ∨ q.values = p.values.push v) := by
  obtain ⟨_, hcall⟩ | ⟨hvoid, ⟨_, hget, hcall⟩ | ⟨_, hroom, _, hcall, hvalues⟩ | ⟨_, _, hcall⟩⟩ :=
    p.intern_cases s v <;> rw [hcall] at h
  · cases h
  · cases h
    exact ⟨hvoid, hget, .inl rfl⟩
  · cases h
    have hindex : (UInt16.ofNat p.size).toNat = p.values.size := UInt16.toNat_ofNat_of_lt hroom
    refine ⟨hvoid, ?_, .inr hvalues⟩
    rw [hvalues, hindex, Array.getElem?_push_size]
  · cases h

-- A call takes no literal from its place.
theorem getElem?_intern {w : Value} {i : Nat} (h : p.values[i]? = some w) :
    (p.intern s v).2.values[i]? = some w := by
  obtain ⟨_, hcall⟩ | ⟨_, ⟨_, _, hcall⟩ | ⟨_, _, q, hcall, hvalues⟩ | ⟨_, _, hcall⟩⟩ :=
    p.intern_cases s v <;> rw [hcall]
  · exact h
  · exact h
  · obtain ⟨hlt, _⟩ := Array.getElem?_eq_some_iff.mp h
    rw [hvalues, Array.getElem?_push_lt hlt, ← h, Array.getElem?_eq_getElem hlt]
  · exact h

-- A pool that calls have built, with the values of the calls and the indices that they returned.
inductive Interned : LiteralPool → List (Value × UInt16) → Prop
  | empty : Interned .empty []
  | call {p q : LiteralPool} {calls : List (Value × UInt16)} {s : Store} {v : Value}
      {index : UInt16} (h : Interned p calls) (hcall : p.intern s v = (.ok index, q)) :
      Interned q (calls ++ [(v, index)])

namespace Interned

variable {calls : List (Value × UInt16)}

-- A literal keeps its place, whatever is put behind it.
theorem getElem?_of_mem (h : Interned p calls) :
    ∀ call ∈ calls, p.values[call.2.toNat]? = some call.1 := by
  induction h with
  | empty => exact List.forall_mem_nil _
  | @call p q calls s v index _ hcall ih =>
    obtain ⟨_, hlast, _⟩ := values_of_intern_eq_ok hcall
    intro call hmem
    rcases List.mem_append.mp hmem with hmem | hmem
    · have hkept := getElem?_intern (s := s) (v := v) (ih call hmem)
      rwa [hcall] at hkept
    · cases List.mem_singleton.mp hmem
      exact hlast

-- Nothing is in a pool but what a call has put there.
theorem exists_call_of_mem (h : Interned p calls) :
    ∀ v ∈ p.values, v.isVoid = false ∧ ∃ index, (v, index) ∈ calls := by
  induction h with
  | empty => exact fun v hmem => absurd hmem (Array.not_mem_empty v)
  | @call p q calls s v index _ hcall ih =>
    obtain ⟨hvoid, _, hvalues⟩ := values_of_intern_eq_ok hcall
    have hold : ∀ w ∈ p.values, w.isVoid = false ∧ ∃ i, (w, i) ∈ calls ++ [(v, index)] := by
      intro w hmem
      obtain ⟨hw, i, hi⟩ := ih w hmem
      exact ⟨hw, i, List.mem_append_left _ hi⟩
    rcases hvalues with hvalues | hvalues <;> rw [hvalues]
    · exact hold
    · intro w hmem
      rcases Array.mem_push.mp hmem with hmem | rfl
      · exact hold w hmem
      · exact ⟨hvoid, index, List.mem_append_right _ (List.mem_singleton_self _)⟩

end Interned

-- A pool with a literal for every word is not written. Any other one is, the artifact reads back,
-- and every index that was returned addresses a literal like the value it was returned for.
theorem Interned.full_or_read {calls : List (Value × UInt16)} (hpool : Interned p calls)
    {table : SymbolTable} {tasks : List (TaskRecord Value)} {word : UInt32}
    {first session : Serializer}
    (hmetadata : Returns (writeMetadata table) (fresh none) word first)
    (hheader : Returns (writeHeader t tasks) first () session)
    (hsized : ∀ task ∈ tasks, task.WordSized)
    (hinitial : ∀ task ∈ tasks, ∀ d ∈ task.devices, t.Storable d.initial)
    (hvalues : ∀ call ∈ calls, s.Storable call.1) :
    (p.size = UInt16.size ∧
      Fails (writeLiterals s p.values.toList) session (.tooMany .literals UInt16.size)
        { session with poisoned := true }) ∨
    (p.size < UInt16.size ∧ ∃ after, Returns (writeLiterals s p.values.toList) session () after ∧
      ∀ code, ∃ last artifact q, Returns (writeCode code) after () last ∧
        last.finish = .ok artifact ∧ Program.read artifact 0 = .ok q ∧
        ∀ u v index, (v, index) ∈ calls → ∃ w,
          (q.thaw u).1.literals[index.toNat]? = some w ∧ Store.Alike s (q.thaw u).2 v w) := by
  obtain ⟨hids, hend, hcount, hsession⟩ := holds_of_writeHeader hmetadata hheader
  have hvoid : ∀ v ∈ p.values.toList, v.isVoid = false := fun v hmem =>
    (hpool.exists_call_of_mem v (Array.mem_toList_iff.mp hmem)).1
  have hstorable : ∀ v ∈ p.values.toList, s.Storable v := by
    intro v hmem
    obtain ⟨_, index, hcall⟩ := hpool.exists_call_of_mem v (Array.mem_toList_iff.mp hmem)
    exact hvalues _ hcall
  obtain hfull | hroom := Nat.eq_or_lt_of_le p.complete
  · have hlength : p.values.toList.length = UInt16.size := hfull
    have hfails := fails_writeLiterals_of_limit_lt (s := s) hsession hvoid (by rw [hlength]; decide)
    rw [hlength] at hfails
    exact .inl ⟨hfull, hfails⟩
  · obtain ⟨functions, htable, _⟩ := SymbolTable.exists_carries_byId hids hend
    obtain ⟨records, hrecords, _⟩ := exists_carries_tasks hsized hinitial
    obtain ⟨trees, htrees, hunfolds⟩ := exists_carries_literals hstorable
    obtain ⟨after, hliterals, hafter⟩ := exists_writeLiterals hsession (by simpa using hvoid) hroom
      (unharmed_counted htrees.unharmed)
    refine .inr ⟨hroom, after, hliterals, fun code => ?_⟩
    obtain ⟨last, hcode, hlast⟩ := exists_writeCode code hafter
    have hread := Program.read_parts code hend hcount hroom htable hrecords htrees
    rw [Emission.counted_eq, Emission.counted_eq] at hlast
    refine ⟨last, _, _, hcode, hlast.finish_eq, hread, fun u v index hcall => ?_⟩
    have hbuilt := Store.builds_traverse (Store.persistent_alike s)
      (hunfolds.imp fun v tree h => Store.builds_thaw h) (u.traverse TaskRecord.thaw records).2
    have hget : p.values.toList[index.toNat]? = some v := by
      rw [Array.getElem?_toList]
      exact hpool.getElem?_of_mem _ hcall
    exact exists_getElem?_of_forall₂ hbuilt.2 hget

-- Two literals, one of them met twice.
def sharedCalls : List (Value × UInt16) :=
  [(.container ⟨1⟩, 0), (.int 7, 1), (.container ⟨1⟩, 0)]

theorem exists_interned_sharedCalls : ∃ p, Interned p sharedCalls ∧ p.size = 2 := by
  obtain ⟨first, hfirst, hfirstValues⟩ := exists_intern_of_notMem (p := .empty)
    (s := Store.sharedStore) (v := .container ⟨1⟩) rfl (Array.not_mem_empty _) (by decide)
  have hsingle : first.values = #[.container ⟨1⟩] := hfirstValues
  have hsize : first.size = 1 := by rw [size, hsingle]; rfl
  obtain ⟨second, hsecond, hsecondValues⟩ := exists_intern_of_notMem (p := first)
    (s := Store.sharedStore) (v := .int 7) rfl (by rw [hsingle]; simp) (by rw [hsize]; decide)
  have hvalues : second.values = #[.container ⟨1⟩, .int 7] := by rw [hsecondValues, hsingle]; rfl
  have hthird : second.intern Store.sharedStore (.container ⟨1⟩) = (.ok 0, second) :=
    intern_of_getElem? rfl (by rw [hvalues]; rfl)
  rw [hsize] at hsecond
  refine ⟨second, ((Interned.empty.call hfirst).call hsecond).call hthird, ?_⟩
  rw [size, hvalues]
  rfl

theorem full_or_read_shared :
    ∃ p word first session, Interned p sharedCalls ∧
      Returns (writeMetadata Program.sharedProgram.functions) (fresh none) word first ∧
      Returns (writeHeader Store.sharedStore Program.sharedProgram.tasks) first () session ∧
      (∀ task ∈ Program.sharedProgram.tasks, task.WordSized) ∧
      (∀ task ∈ Program.sharedProgram.tasks, ∀ d ∈ task.devices,
        Store.sharedStore.Storable d.initial) ∧
      (∀ call ∈ sharedCalls, Store.sharedStore.Storable call.1) ∧
      ∃ after, Returns (writeLiterals Store.sharedStore p.values.toList) session () after ∧
        ∀ code, ∃ last artifact q, Returns (writeCode code) after () last ∧
          last.finish = .ok artifact ∧ Program.read artifact 0 = .ok q ∧
          ∀ u v index, (v, index) ∈ sharedCalls → ∃ w,
            (q.thaw u).1.literals[index.toNat]? = some w ∧
              Store.Alike Store.sharedStore (q.thaw u).2 v w := by
  obtain ⟨p, hpool, hsize⟩ := exists_interned_sharedCalls
  obtain ⟨hids, hmetadata, hcount, _, hsized, _, hvalues⟩ := Program.writable_sharedProgram
  have hinitial : ∀ task ∈ Program.sharedProgram.tasks, ∀ d ∈ task.devices,
      Store.sharedStore.Storable d.initial := by
    intro task htask d hd
    obtain ⟨hres, harch⟩ := hvalues d.initial
      (List.mem_append_right _ (List.mem_flatMap.mpr ⟨task, htask, List.mem_map_of_mem hd⟩))
    exact ⟨hres, harch⟩
  have hstorable : ∀ call ∈ sharedCalls, Store.sharedStore.Storable call.1 := by
    have hlist : Store.sharedStore.Storable (.container ⟨1⟩) := by
      obtain ⟨hres, harch⟩ := hvalues (.container ⟨1⟩) (by decide)
      exact ⟨hres, harch⟩
    have hint : Store.sharedStore.Storable (.int 7) := Store.storable_of_scalar trivial rfl
    simp only [sharedCalls, List.forall_mem_cons]
    exact ⟨hlist, hint, hlist, List.forall_mem_nil _⟩
  obtain ⟨word, first, session, htable, hheader, _⟩ :=
    exists_writeHeader_of_storable hids hmetadata hcount hsized hinitial
  refine ⟨p, word, first, session, hpool, htable, hheader, hsized, hinitial, hstorable, ?_⟩
  obtain ⟨hfull, _⟩ | ⟨_, hread⟩ := hpool.full_or_read htable hheader hsized hinitial hstorable
  · rw [hsize] at hfull
    cases hfull
  · exact hread

-- As many calls as there are words, with a literal of its own each.
def countingCalls (n : Nat) : List (Value × UInt16) :=
  (List.range n).map fun k => (.int (Int64.ofNat k), UInt16.ofNat k)

theorem exists_interned_countingCalls {n : Nat} (h : n ≤ UInt16.size) :
    ∃ p, Interned p (countingCalls n) ∧ p.values.toList = (countingCalls n).map Prod.fst := by
  induction n with
  | zero => exact ⟨.empty, .empty, rfl⟩
  | succ n ih =>
    obtain ⟨p, hp, hvalues⟩ := ih (Nat.le_of_succ_le h)
    have hsize : p.size = n := by
      rw [size, ← Array.length_toList, hvalues, countingCalls, List.length_map, List.length_map,
        List.length_range]
    have hfresh : Value.int (Int64.ofNat n) ∉ p.values := by
      intro hmem
      rw [← Array.mem_toList_iff, hvalues] at hmem
      simp only [countingCalls, List.map_map, List.mem_map, List.mem_range, Function.comp_apply,
        Value.int.injEq] at hmem
      obtain ⟨k, hk, heq⟩ := hmem
      have hint := congrArg Int64.toInt heq
      have hbound : UInt16.size = 65536 := rfl
      rw [Int64.toInt_ofNat_of_lt (by omega), Int64.toInt_ofNat_of_lt (by omega)] at hint
      omega
    obtain ⟨q, hcall, hq⟩ :=
      exists_intern_of_notMem (s := .empty) rfl hfresh (by rw [hsize]; exact h)
    have hsucc : countingCalls (n + 1) =
        countingCalls n ++ [(.int (Int64.ofNat n), UInt16.ofNat n)] := by
      rw [countingCalls, List.range_succ, List.map_append]
      rfl
    rw [hsize] at hcall
    refine ⟨q, hsucc ▸ hp.call hcall, ?_⟩
    rw [hq, hsucc, Array.toList_push, hvalues, List.map_append]
    rfl

-- Every call succeeds on the literals of all words, and the pool that they build is not written.
theorem exists_interned_not_written :
    ∃ p word first session, Interned p (countingCalls UInt16.size) ∧
      (∀ call ∈ countingCalls UInt16.size, Store.empty.Storable call.1) ∧
      Returns (writeMetadata .empty) (fresh none) word first ∧
      Returns (writeHeader .empty []) first () session ∧
      ¬∃ after, Returns (writeLiterals .empty p.values.toList) session () after := by
  obtain ⟨p, hpool, hvalues⟩ := exists_interned_countingCalls (Nat.le_refl UInt16.size)
  have hscalar : ∀ call ∈ countingCalls UInt16.size, Store.empty.Storable call.1 := by
    intro call hmem
    obtain ⟨k, _, rfl⟩ := List.mem_map.mp hmem
    exact Store.storable_of_scalar trivial rfl
  have hids : ((.empty : SymbolTable).toList.map fun function => function.2.id).Nodup := .nil
  have hend : 4 + (SymbolTable.emission (SymbolTable.byId .empty)).bytes.length < UInt32.size := by
    rw [SymbolTable.byId_empty]
    decide
  obtain ⟨word, first, session, hmetadata, hheader, _⟩ :=
    exists_writeHeader_of_storable (s := .empty) hids hend (by decide)
      (List.forall_mem_nil TaskRecord.WordSized) (List.forall_mem_nil _)
  refine ⟨p, word, first, session, hpool, hscalar, hmetadata, hheader, ?_⟩
  rintro ⟨after, hreturns⟩
  have hlength : p.values.toList.length = UInt16.size := by
    rw [hvalues, countingCalls, List.length_map, List.length_map, List.length_range]
  obtain ⟨_, _, _, hcount, _⟩ := returns_writeLiterals_iff.mp hreturns
  rw [hlength] at hcount
  exact absurd hcount (by decide)

end Conductor.LiteralPool
