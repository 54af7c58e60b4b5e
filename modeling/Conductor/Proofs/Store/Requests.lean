import Conductor.Proofs.Keys
import Conductor.Proofs.Store.Writing
import Conductor.Store.Request

namespace Conductor

section Settling

variable {σ τ α β : Type} {before after : σ} {outcome : Except ValueError (α × σ)}
  {error : ValueError}

-- What an operation answers and leaves that is done as a whole or not at all.
def settle (before : σ) : Except ValueError (α × σ) → Except ValueError α × σ
  | .ok (answer, after) => (.ok answer, after)
  | .error error => (.error error, before)

theorem settle_eq_ok_iff {answer : α} :
    settle before outcome = (.ok answer, after) ↔ outcome = .ok (answer, after) := by
  cases outcome with
  | ok pair => simp [settle, Prod.ext_iff]
  | error failure => simp [settle]

theorem settle_eq_error_iff :
    settle before outcome = (.error error, after) ↔ outcome = .error error ∧ after = before := by
  cases outcome with
  | ok pair => simp [settle]
  | error failure => simp [settle, eq_comm]

theorem map_settle (f : σ → τ) :
    (settle before outcome).map id f = settle (f before) (Prod.map id f <$> outcome) := by
  cases outcome <;> rfl

theorem map_eq_error_iff {f : α → β} {result : Except ValueError α} :
    f <$> result = .error error ↔ result = .error error := by
  cases result <;> simp

theorem map_eq_ok_iff {f : α → β} {result : Except ValueError α} {b : β} :
    f <$> result = .ok b ↔ ∃ a, result = .ok a ∧ f a = b := by
  cases result <;> simp

-- Behind a step that only reads, steps that never fail make a whole.
theorem run_bind_of_reads {work : Request.Step σ α} {result : Except ValueError α}
    {next : α → Request.Step σ β} {whole : α → β × σ} (hreads : work.run before = (result, before))
    (hnext : ∀ a, (next a).run before = (.ok (whole a).1, (whole a).2)) :
    (work >>= next).run before = settle before (whole <$> result) := by
  change (let ended := work.run before; ExceptT.bindCont next ended.1 ended.2) = _
  rw [hreads]
  cases result with
  | ok a => exact hnext a
  | error error => rfl

theorem run_bind_of_returns {work : Request.Step σ α} {a : α} (next : α → Request.Step σ β)
    (h : work.run before = (.ok a, after)) : (work >>= next).run before = (next a).run after := by
  change (let ended := work.run before; ExceptT.bindCont next ended.1 ended.2) = _
  rw [h]
  rfl

end Settling

theorem Value.text?_eq_none_iff {v : Value} :
    v.text? = none ↔ v.isVoid = true ∨ v.isContainer = true := by
  cases v <;> simp [text?, isVoid, isContainer]

namespace Request

variable {form : Form} {α : Type}

-- The key that a request comes with.
def key? : Request form α → Option Value
  | access key | get key | assign key _ | set key _ => some key
  | contains key | emplace key _ | erase key => some key
  | look | clear | mark _ | append _ | pop => none

-- The key of the slot that a request needs to be there.
def slot? : Request form α → Option Value
  | access key | get key | assign key _ | set key _ => some key
  | contains _ | emplace .. | erase _ => none
  | look | clear | mark _ | append _ | pop => none

theorem key?_of_slot? {request : Request form α} {key : Value} (h : request.slot? = some key) :
    request.key? = some key := by
  cases request <;> first | exact h | cases h

end Request

namespace MapCell

variable {α : Type}

-- A request as an operation that is done as a whole or not at all.
def outcome (s : Store) (cell : MapCell) : Request .map α → Except ValueError (α × MapCell)
  | .look => .ok (.map cell, cell)
  | .access key | .get key => (·, cell) <$> cell.get s key
  | .assign key value => cell.assign s key value
  | .clear => .ok ((), cell.clear)
  | .mark flag => .ok ((), { cell with modified := flag })
  | .contains key => (·, cell) <$> cell.contains s key
  | .emplace key value => ((), ·) <$> cell.emplace s key value
  | .erase key => cell.erase s key

-- The ways in which a request to a map fails.
inductive Fails (s : Store) (cell : MapCell) (request : Request .map α) : ValueError → Prop
  | unkeyed {key : Value} (hkey : request.key? = some key)
      (h : key.isVoid = true ∨ key.isContainer = true) :
      Fails s cell request (.undefined .mapKey (s.tag key) none)
  | missing {key : Value} {text : String} (hslot : request.slot? = some key)
      (htext : key.text? = some text) (h : text ∉ cell.entries.keys) :
      Fails s cell request (.keyNotFound text)

variable {s : Store} {cell : MapCell} {request : Request .map α} {key : Value} {error : ValueError}

theorem get_eq (cell : MapCell) (s : Store) (key : Value) :
    cell.get s key = Prod.snd <$> cell.slot s key := by
  rw [MapCell.get, slot]
  cases s.mapKey key with
  | error error => rfl
  | ok text =>
    simp only [bind, Except.bind]
    cases cell.entries.get? text <;> rfl

theorem assign_eq (cell : MapCell) (s : Store) (key value : Value) : cell.assign s key value =
    (fun found => (found.2, { cell with entries := cell.entries.insert found.1 value })) <$>
      cell.slot s key := by
  rw [assign, slot]
  cases s.mapKey key with
  | error error => rfl
  | ok text =>
    simp only [bind, Except.bind]
    cases cell.entries.get? text <;> rfl

theorem contains_eq (cell : MapCell) (s : Store) (key : Value) :
    cell.contains s key = cell.entries.contains <$> s.mapKey key := by
  rw [MapCell.contains]
  cases s.mapKey key <;> rfl

theorem emplace_eq (cell : MapCell) (s : Store) (key value : Value) : cell.emplace s key value =
    (fun text => { cell with entries := cell.entries.insert text value, modified := true }) <$>
      s.mapKey key := by
  rw [emplace]
  cases s.mapKey key <;> rfl

theorem erase_eq (cell : MapCell) (s : Store) (key : Value) : cell.erase s key =
    (fun text => (cell.entries.get? text, if (cell.entries.get? text).isSome
      then { cell with entries := cell.entries.erase text, modified := true } else cell)) <$>
      s.mapKey key := by
  cases htext : key.text? with
  | none =>
    rw [erase, mapKey_of_text?_eq_none htext]
    rfl
  | some text =>
    rw [erase_of_text? htext, mapKey_of_text? htext]
    rfl

theorem run_remove (text : String) (cell : MapCell) : (remove text).run cell =
    (.ok (cell.entries.get? text), { cell with entries := cell.entries.erase text }) := rfl

-- The steps of a request write all that it has to write, or they fail before the first write.
theorem run_perform (s : Store) (cell : MapCell) (request : Request .map α) :
    (perform s request).run cell = settle cell (cell.outcome s request) := by
  cases request with
  | look => rfl
  | access key | get key =>
    rw [outcome, get_eq, ← comp_map]
    exact run_bind_of_reads rfl fun _ => rfl
  | assign key value =>
    rw [outcome, assign_eq]
    exact run_bind_of_reads rfl fun _ => rfl
  | clear => rfl
  | mark flag => rfl
  | contains key =>
    rw [outcome, contains_eq, ← comp_map]
    exact run_bind_of_reads rfl fun _ => rfl
  | emplace key value =>
    rw [outcome, emplace_eq, ← comp_map]
    exact run_bind_of_reads rfl fun _ => rfl
  | erase key =>
    rw [outcome, erase_eq]
    refine run_bind_of_reads rfl fun text => ?_
    rw [run_bind_of_returns _ (run_remove text cell)]
    cases hget : cell.entries.get? text with
    | none =>
      rw [OrderedMap.erase_of_notMem (OrderedMap.notMem_keys_of_get? hget)]
      rfl
    | some old => rfl

theorem mapKey_eq_error_iff : s.mapKey key = .error error ↔
    (key.isVoid = true ∨ key.isContainer = true) ∧
      error = .undefined .mapKey (s.tag key) none := by
  rw [← Value.text?_eq_none_iff]
  cases htext : key.text? with
  | none => simp [mapKey_of_text?_eq_none htext, Store.refuse, eq_comm]
  | some text => simp [mapKey_of_text? htext]

theorem slot_eq_error_iff : cell.slot s key = .error error ↔ s.mapKey key = .error error ∨
    ∃ text, key.text? = some text ∧ text ∉ cell.entries.keys ∧ error = .keyNotFound text := by
  rw [slot]
  cases htext : key.text? with
  | none => simp [mapKey_of_text?_eq_none htext, Store.refuse, bind, Except.bind]
  | some text =>
    rw [mapKey_of_text? htext]
    simp only [bind, Except.bind]
    cases hget : cell.entries.get? text with
    | none => simp [OrderedMap.notMem_keys_of_get? hget, eq_comm]
    | some value => simp [OrderedMap.mem_keys_of_get? hget]

theorem fails_iff : cell.Fails s request error ↔
    (∃ key, request.key? = some key ∧ s.mapKey key = .error error) ∨
      ∃ key, request.slot? = some key ∧ cell.slot s key = .error error := by
  constructor
  · rintro (⟨hkey, h⟩ | ⟨hslot, htext, h⟩)
    · exact .inl ⟨_, hkey, mapKey_eq_error_iff.mpr ⟨h, rfl⟩⟩
    · exact .inr ⟨_, hslot, slot_eq_error_iff.mpr (.inr ⟨_, htext, h, rfl⟩)⟩
  · have hunkeyed {key : Value} (hkey : request.key? = some key)
        (h : s.mapKey key = .error error) : cell.Fails s request error := by
      obtain ⟨hnone, rfl⟩ := mapKey_eq_error_iff.mp h
      exact .unkeyed hkey hnone
    rintro (⟨key, hkey, h⟩ | ⟨key, hslot, h⟩)
    · exact hunkeyed hkey h
    · obtain h | ⟨text, htext, habsent, rfl⟩ := slot_eq_error_iff.mp h
      · exact hunkeyed (Request.key?_of_slot? hslot) h
      · exact .missing hslot htext habsent

-- A request fails for its key and for nothing else.
theorem outcome_eq_error_iff :
    cell.outcome s request = .error error ↔ cell.Fails s request error := by
  rw [fails_iff]
  cases request with
  | access key | get key =>
    rw [outcome, get_eq, map_eq_error_iff, map_eq_error_iff]
    simp [Request.key?, Request.slot?, slot_eq_error_iff]
  | assign key value =>
    rw [outcome, assign_eq, map_eq_error_iff]
    simp [Request.key?, Request.slot?, slot_eq_error_iff]
  | contains key =>
    rw [outcome, contains_eq, map_eq_error_iff, map_eq_error_iff]
    simp [Request.key?, Request.slot?]
  | emplace key value =>
    rw [outcome, emplace_eq, map_eq_error_iff, map_eq_error_iff]
    simp [Request.key?, Request.slot?]
  | erase key =>
    rw [outcome, erase_eq, map_eq_error_iff]
    simp [Request.key?, Request.slot?]
  | look | clear | mark flag => simp [outcome, Request.key?, Request.slot?]

end MapCell

namespace ListCell

variable {α : Type}

-- A request as an operation that is done as a whole or not at all.
def outcome (s : Store) (cell : ListCell) : Request .list α → Except ValueError (α × ListCell)
  | .look => .ok (.list cell, cell)
  | .access key | .get key => (·, cell) <$> cell.get s key
  | .assign key value => cell.assign s key value
  | .clear => .ok ((), cell.clear)
  | .mark flag => .ok ((), { cell with modified := flag })
  | .set key value => cell.set s key value
  | .append value => .ok ((), cell.append value)
  | .pop => .ok cell.pop

-- The ways in which a request to a list fails.
inductive Fails (s : Store) (cell : ListCell) (request : Request .list α) : ValueError → Prop
  | unindexed {key : Value} (hslot : request.slot? = some key) (h : ∀ i, key ≠ .int i) :
      Fails s cell request (.undefined .index (s.tag key) none)
  | outside {i : Int64} (hslot : request.slot? = some (.int i))
      (h : i.toInt < 0 ∨ cell.items.length ≤ i.toInt) :
      Fails s cell request (.indexOutOfBounds i cell.items.length)

variable {s : Store} {cell : ListCell} {request : Request .list α} {key : Value}
  {error : ValueError}

theorem get_eq (cell : ListCell) (s : Store) (key : Value) :
    cell.get s key = Prod.snd <$> cell.slot s key := by
  rw [ListCell.get, slot]
  cases s.position key cell.items.length <;> rfl

theorem assign_eq (cell : ListCell) (s : Store) (key value : Value) : cell.assign s key value =
    (fun found => (found.2, { cell with items := cell.items.set found.1 value })) <$>
      cell.slot s key := by
  rw [assign, slot]
  cases s.position key cell.items.length <;> rfl

theorem set_eq (cell : ListCell) (s : Store) (key value : Value) : cell.set s key value =
    (fun found =>
      (found.2, { cell with items := cell.items.set found.1 value, modified := true })) <$>
      cell.slot s key := by
  rw [ListCell.set, assign, slot]
  cases s.position key cell.items.length <;> rfl

theorem run_removeLast (cell : ListCell) : removeLast.run cell =
    (.ok cell.items.getLast?, { cell with items := cell.items.dropLast }) := rfl

theorem run_perform (s : Store) (cell : ListCell) (request : Request .list α) :
    (perform s request).run cell = settle cell (cell.outcome s request) := by
  cases request with
  | look => rfl
  | access key | get key =>
    rw [outcome, get_eq, ← comp_map]
    exact run_bind_of_reads rfl fun _ => rfl
  | assign key value =>
    rw [outcome, assign_eq]
    exact run_bind_of_reads rfl fun _ => rfl
  | clear => rfl
  | mark flag => rfl
  | set key value =>
    rw [outcome, set_eq]
    exact run_bind_of_reads rfl fun _ => rfl
  | append value => rfl
  | pop =>
    rw [perform, run_bind_of_returns _ (run_removeLast cell), outcome, ListCell.pop]
    cases hlast : cell.items.getLast? with
    | none =>
      have hnil : cell.items.dropLast = cell.items := by
        rw [List.getLast?_eq_none_iff.mp hlast, List.dropLast_nil]
      rw [hnil]
      rfl
    | some last => rfl

theorem slot_eq_error_iff : cell.slot s key = .error error ↔
    (∀ i, key ≠ .int i) ∧ error = .undefined .index (s.tag key) none ∨
      ∃ i : Int64, key = .int i ∧ (i.toInt < 0 ∨ cell.items.length ≤ i.toInt) ∧
        error = .indexOutOfBounds i cell.items.length := by
  have hslot : cell.slot s key = .error error ↔
      s.position key cell.items.length = .error error := map_eq_error_iff
  rw [hslot]
  cases key with
  | int i =>
    by_cases hinside : 0 ≤ i.toInt ∧ i.toInt < cell.items.length
    · simp [Store.position, hinside]
    · have houtside : i.toInt < 0 ∨ cell.items.length ≤ i.toInt := by omega
      simp [Store.position, hinside, houtside, eq_comm]
  | _ => simp [Store.position, Store.refuse, eq_comm]

theorem fails_iff : cell.Fails s request error ↔
    ∃ key, request.slot? = some key ∧ cell.slot s key = .error error := by
  constructor
  · rintro (⟨hslot, h⟩ | ⟨hslot, h⟩)
    · exact ⟨_, hslot, slot_eq_error_iff.mpr (.inl ⟨h, rfl⟩)⟩
    · exact ⟨_, hslot, slot_eq_error_iff.mpr (.inr ⟨_, rfl, h, rfl⟩)⟩
  · rintro ⟨key, hslot, h⟩
    obtain ⟨hindex, rfl⟩ | ⟨i, rfl, houtside, rfl⟩ := slot_eq_error_iff.mp h
    · exact .unindexed hslot hindex
    · exact .outside hslot houtside

theorem outcome_eq_error_iff :
    cell.outcome s request = .error error ↔ cell.Fails s request error := by
  rw [fails_iff]
  cases request with
  | access key | get key =>
    rw [outcome, get_eq, map_eq_error_iff, map_eq_error_iff]
    simp [Request.slot?]
  | assign key value =>
    rw [outcome, assign_eq, map_eq_error_iff]
    simp [Request.slot?]
  | set key value =>
    rw [outcome, set_eq, map_eq_error_iff]
    simp [Request.slot?]
  | look | clear | mark flag | append value | pop => simp [outcome, Request.slot?]

end ListCell

namespace Container

variable {s : Store} {c : Container} {α : Type}

-- A request as an operation that is done as a whole or not at all.
def outcome (s : Store) : (c : Container) → Request c.form α → Except ValueError (α × Container)
  | list cell, request => Prod.map id list <$> cell.outcome s request
  | map cell, request => Prod.map id map <$> cell.outcome s request

-- The ways in which a request to a container fails.
def Fails (s : Store) : (c : Container) → Request c.form α → ValueError → Prop
  | list cell, request => cell.Fails s request
  | map cell, request => cell.Fails s request

theorem perform_eq (s : Store) (c : Container) (request : Request c.form α) :
    c.perform s request = settle c (c.outcome s request) := by
  cases c with
  | list cell => rw [perform, ListCell.run_perform, map_settle, outcome]
  | map cell => rw [perform, MapCell.run_perform, map_settle, outcome]

theorem outcome_eq_error_iff {request : Request c.form α} {error : ValueError} :
    c.outcome s request = .error error ↔ c.Fails s request error := by
  cases c with
  | list cell => rw [outcome, map_eq_error_iff, ListCell.outcome_eq_error_iff, Fails]
  | map cell => rw [outcome, map_eq_error_iff, MapCell.outcome_eq_error_iff, Fails]

end Container

namespace ListCell

-- A list after the element at a position was exchanged for another one.
structure Replaced (cell : ListCell) (i : Nat) (old value : Value) (after : ListCell) : Prop where
  read : cell.items[i]? = some old
  written : after.items[i]? = some value
  others : ∀ j, j ≠ i → after.items[j]? = cell.items[j]?
  element : after.element = cell.element
  sample : after.sample = cell.sample
  modified : after.modified = true

variable {s : Store} {cell after : ListCell} {key old value : Value}

theorem replaced_iff {i : Nat} : cell.Replaced i old value after ↔
    i < cell.items.length ∧ cell.items.getD i .void = old ∧
      { cell with items := cell.items.set i value, modified := true } = after := by
  constructor
  · intro h
    obtain ⟨hi, _⟩ := List.getElem?_eq_some_iff.mp h.read
    have hitems : cell.items.set i value = after.items := by
      refine List.ext_getElem? fun j => ?_
      by_cases hj : j = i
      · rw [hj, List.getElem?_set_self hi, h.written]
      · rw [List.getElem?_set_ne (Ne.symm hj), h.others j hj]
    refine ⟨hi, by rw [List.getD_eq_getElem?_getD, h.read, Option.getD_some], ?_⟩
    rw [hitems, ← h.element, ← h.sample, ← h.modified]
  · rintro ⟨hi, rfl, rfl⟩
    refine ⟨by simp [hi], by simp [hi], fun j hj => ?_, rfl, rfl, rfl⟩
    exact List.getElem?_set_ne hj.symm

theorem position_eq_ok_iff {length n : Nat} : s.position key length = .ok n ↔
    ∃ i : Int64, key = .int i ∧ 0 ≤ i.toInt ∧ i.toInt.toNat = n ∧ n < length := by
  cases key with
  | int i =>
    rw [Store.position]
    by_cases hinside : 0 ≤ i.toInt ∧ i.toInt < length
    · rw [if_pos hinside, Except.ok.injEq]
      constructor
      · rintro rfl
        exact ⟨i, rfl, hinside.1, rfl, by omega⟩
      · rintro ⟨_, ⟨⟩, _, h, _⟩
        exact h
    · rw [if_neg hinside]
      refine iff_of_false nofun ?_
      rintro ⟨_, ⟨⟩, hi, rfl, hlt⟩
      omega
  | _ => simp [Store.position, Store.refuse]

theorem set_eq_ok_iff_replaced : cell.set s key value = .ok (old, after) ↔
    ∃ i : Int64, key = .int i ∧ 0 ≤ i.toInt ∧ cell.Replaced i.toInt.toNat old value after := by
  simp only [set_eq_ok_iff, position_eq_ok_iff, replaced_iff]
  constructor
  · rintro ⟨_, ⟨i, rfl, hi, rfl, hlength⟩, hold, hafter⟩
    exact ⟨i, rfl, hi, hlength, hold, hafter⟩
  · rintro ⟨i, rfl, hi, hlength, hold, hafter⟩
    exact ⟨_, ⟨i, rfl, hi, rfl, hlength⟩, hold, hafter⟩

end ListCell

namespace Store

variable {s : Store} {a : Address} {c : Container}

theorem put_of_find? (hfind : s.find? a = some c) : s.put a c = s := by
  have hcell : s.cells[a.index]? = some (some c) := Option.join_eq_some_iff.mp hfind
  refine congrArg Store.mk (Array.ext_getElem? fun i => ?_)
  by_cases hi : a.index = i
  · subst hi
    rw [Array.getElem?_setIfInBounds_self_of_lt (index_lt_of_find? hfind), hcell]
  · rw [Array.getElem?_setIfInBounds_ne hi]

theorem ask_eq (hfind : s.find? a = some c) {α : Type} (request : Request c.form α) :
    s.ask a c request = settle s (Prod.map id (s.put a) <$> c.outcome s request) := by
  rw [ask, Container.perform_eq, map_settle, put_of_find? hfind]

theorem find?_ask (hfind : s.find? a = some c) {α : Type} (request : Request c.form α)
    {b : Address} (hb : b ≠ a) : (s.ask a c request).2.find? b = s.find? b := by
  rw [ask, Prod.map_snd, find?_put (index_lt_of_find? hfind), if_neg hb]

theorem ask_set_eq_ok_iff {cell : ListCell} (hfind : s.find? a = some (.list cell))
    {key value old : Value} {t : Store} :
    s.ask a (.list cell) (.set key value) = (.ok old, t) ↔
      ∃ (i : Int64) (after : ListCell), key = .int i ∧ 0 ≤ i.toInt ∧
        cell.Replaced i.toInt.toNat old value after ∧ t = s.put a (.list after) := by
  rw [ask_eq hfind, settle_eq_ok_iff, Container.outcome, ListCell.outcome]
  simp only [map_eq_ok_iff, Prod.exists, ListCell.set_eq_ok_iff_replaced]
  constructor
  · rintro ⟨_, _, ⟨_, after, ⟨i, hkey, hi, hreplaced⟩, ⟨⟩⟩, ⟨⟩⟩
    exact ⟨i, after, hkey, hi, hreplaced, rfl⟩
  · rintro ⟨i, after, hkey, hi, hreplaced, rfl⟩
    exact ⟨_, _, ⟨_, after, ⟨i, hkey, hi, hreplaced⟩, rfl⟩, rfl⟩

-- A request fails for its key and for nothing else, and then leaves every container as it is. None
-- touches another container, and `set` exchanges just the element that its key names.
theorem ask_whole (hfind : s.find? a = some c) :
    (∀ (α : Type) (request : Request c.form α) (error : ValueError) (t : Store),
      s.ask a c request = (.error error, t) ↔ c.Fails s request error ∧ t = s) ∧
    (∀ (α : Type) (request : Request c.form α) (b : Address), b ≠ a →
      (s.ask a c request).2.find? b = s.find? b) ∧
    ∀ cell, c = .list cell → ∀ (key value old : Value) (t : Store),
      s.ask a (.list cell) (.set key value) = (.ok old, t) ↔
        ∃ (i : Int64) (after : ListCell), key = .int i ∧ 0 ≤ i.toInt ∧
          cell.Replaced i.toInt.toNat old value after ∧ t = s.put a (.list after) := by
  refine ⟨fun α request error t => ?_, fun α request b hb => find?_ask hfind request hb, ?_⟩
  · rw [ask_eq hfind, settle_eq_error_iff, map_eq_error_iff, Container.outcome_eq_error_iff]
  · rintro cell rfl key value old t
    exact ask_set_eq_ok_iff hfind

-- A list of two numbers next to an empty map.
def pair : ListCell := { element := .int, items := [.int 1, .int 2] }

def pairStore : Store := ⟨#[some (.list pair), some (.map (.new .map .string .any))]⟩

theorem ask_whole_pair : pairStore.find? ⟨0⟩ = some (.list pair) ∧
    pairStore.ask ⟨0⟩ (.list pair) (.set (.int (-1)) (.int 9)) =
      (.error (.indexOutOfBounds (-1) 2), pairStore) ∧
    pairStore.ask ⟨0⟩ (.list pair) (.get (.container ⟨1⟩)) =
      (.error (.undefined .index .map none), pairStore) ∧
    pairStore.ask ⟨0⟩ (.list pair) (.set (.int 1) (.int 9)) = (.ok (.int 2),
      pairStore.put ⟨0⟩ (.list { pair with items := [.int 1, .int 9], modified := true })) := by
  have hfind : pairStore.find? ⟨0⟩ = some (.list pair) := rfl
  have hkey : pair.Fails pairStore (.get (.container ⟨1⟩))
      (.undefined .index (pairStore.tag (.container ⟨1⟩)) none) :=
    .unindexed rfl fun _ h => nomatch h
  obtain ⟨hfails, _, hset⟩ := ask_whole hfind
  refine ⟨hfind, (hfails _ _ _ _).mpr ⟨.outside rfl (.inl (by decide)), rfl⟩,
    (hfails _ _ _ _).mpr ⟨hkey, rfl⟩, (hset pair rfl _ _ _ _).mpr ?_⟩
  exact ⟨1, _, rfl, by decide, ListCell.replaced_iff.mpr ⟨by decide, rfl, rfl⟩, rfl⟩

end Store

end Conductor
