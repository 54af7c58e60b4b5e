import Conductor.Proofs.MapHistory

namespace Conductor

section Once

variable {ε : Type} {P : List ε → ε → Prop} {history : List ε} {event : ε}

-- Some event has P of what was before it.
def Once (P : List ε → ε → Prop) : List ε → Prop := Since P fun _ => True

theorem not_once_nil : ¬Once P [] := not_since_nil

theorem once_concat : Once P (history ++ [event]) ↔ P history event ∨ Once P history := by
  rw [Once, since_concat, true_and]

end Once

namespace Container

-- An operation on a container. Those with a key take the store that tells the type of a wrong one.
-- Readings without a key show the sizes, the types, the flag or a copy of the contents.
inductive Operation
  | look
  | get (s : Store) (key : Value)
  | contains (s : Store) (key : Value)
  | emplace (s : Store) (key value : Value)
  | erase (s : Store) (key : Value)
  | set (s : Store) (key value : Value)
  | append (value : Value)
  | pop
  | clear

namespace Operation

-- A list after one of its operations, or the error that it ends with.
def onList (cell : ListCell) : Operation → Except ValueError ListCell
  | get s key => do
    let _ ← cell.get s key
    return cell
  | set s key value => Prod.snd <$> cell.set s key value
  | append value => .ok (cell.append value)
  | pop => .ok cell.pop.2
  | clear => .ok cell.clear
  | look | contains .. | emplace .. | erase .. => .ok cell

-- A map after one of its operations, or the error that it ends with.
def onMap (cell : MapCell) : Operation → Except ValueError MapCell
  | get s key => do
    let _ ← cell.get s key
    return cell
  | contains s key => do
    let _ ← cell.contains s key
    return cell
  | emplace s key value => cell.emplace s key value
  | erase s key => Prod.snd <$> cell.erase s key
  | clear => .ok cell.clear
  | look | set .. | append .. | pop => .ok cell

-- The operations of the other kind of container are none of this one's own and do nothing.
def perform (operation : Operation) : Container → Except ValueError Container
  | list cell => list <$> operation.onList cell
  | map cell => map <$> operation.onMap cell

-- An operation that fails leaves the container as it is.
def after (c : Container) (operation : Operation) : Container :=
  (operation.perform c).toOption.getD c

def Reads : Operation → Prop
  | look | get .. | contains .. => True
  | _ => False

-- The operation reads, or it fails.
def Idle (c : Container) (operation : Operation) : Prop :=
  operation.Reads ∨ ∃ error, operation.perform c = .error error

-- The operation stores a value or takes one out.
def Records : Container → Operation → Prop
  | map _, emplace _ key _ => key.text? ≠ none
  | map cell, erase _ key => ∃ text, key.text? = some text ∧ text ∈ cell.entries.keys
  | list cell, set s key _ => ∃ i, s.position key cell.items.length = .ok i
  | list _, append _ => True
  | list cell, pop => cell.items ≠ []
  | _, _ => False

-- The operation drops all contents at once.
def Empties (c : Container) (operation : Operation) : Prop :=
  operation = clear ∧ c.contents ≠ []

variable {c : Container} {operation : Operation}

theorem after_list (cell : ListCell) (operation : Operation) :
    operation.after (list cell) = list ((operation.onList cell).toOption.getD cell) := by
  rw [after, perform]
  cases operation.onList cell <;> rfl

theorem after_map (cell : MapCell) (operation : Operation) :
    operation.after (map cell) = map ((operation.onMap cell).toOption.getD cell) := by
  rw [after, perform]
  cases operation.onMap cell <;> rfl

theorem getD_reading {ε α β : Type} (found : Except ε β) (a : α) :
    (do
      let _ ← found
      return a : Except ε α).toOption.getD a = a := by
  cases found <;> rfl

theorem after_list_cases (cell : ListCell) (operation : Operation) :
    ¬operation.Records (list cell) ∧ operation.after (list cell) = list cell ∨
      operation.Records (list cell) ∧ (operation.after (list cell)).modified = true ∨
      operation.Empties (list cell) ∧ operation.after (list cell) = list cell.clear := by
  rw [after_list]
  cases operation with
  | get s key => exact .inl ⟨id, congrArg list (getD_reading _ cell)⟩
  | set s key value =>
    rw [onList, ListCell.set, ListCell.assign]
    cases hposition : s.position key cell.items.length with
    | error error =>
      refine .inl ⟨?_, rfl⟩
      rintro ⟨i, hi⟩
      cases hposition.symm.trans hi
    | ok i => exact .inr (.inl ⟨⟨i, hposition⟩, rfl⟩)
  | append value => exact .inr (.inl ⟨trivial, rfl⟩)
  | pop =>
    rw [onList, ListCell.pop]
    cases hlast : cell.items.getLast? with
    | none => exact .inl ⟨fun h => h (List.getLast?_eq_none_iff.mp hlast), rfl⟩
    | some last =>
      refine .inr (.inl ⟨fun hnil => ?_, rfl⟩)
      rw [hnil] at hlast
      cases hlast
  | clear =>
    by_cases hnil : cell.items = []
    · refine .inl ⟨id, congrArg list ?_⟩
      cases cell
      cases hnil
      rfl
    · exact .inr (.inr ⟨⟨rfl, hnil⟩, rfl⟩)
  | _ => exact .inl ⟨id, rfl⟩

theorem after_map_cases (cell : MapCell) (operation : Operation) :
    ¬operation.Records (map cell) ∧ operation.after (map cell) = map cell ∨
      operation.Records (map cell) ∧ (operation.after (map cell)).modified = true ∨
      operation.Empties (map cell) ∧ operation.after (map cell) = map cell.clear := by
  rw [after_map]
  cases operation with
  | get s key => exact .inl ⟨id, congrArg map (getD_reading _ cell)⟩
  | contains s key => exact .inl ⟨id, congrArg map (getD_reading _ cell)⟩
  | emplace s key value =>
    rw [onMap]
    cases htext : key.text? with
    | none =>
      rw [MapCell.emplace, MapCell.mapKey_of_text?_eq_none htext]
      exact .inl ⟨fun h => h htext, rfl⟩
    | some text =>
      rw [MapCell.emplace_of_text? htext]
      have hrecords : key.text? ≠ none := by simp [htext]
      exact .inr (.inl ⟨hrecords, rfl⟩)
  | erase s key =>
    rw [onMap]
    cases htext : key.text? with
    | none =>
      rw [MapCell.erase, MapCell.mapKey_of_text?_eq_none htext]
      refine .inl ⟨?_, rfl⟩
      rintro ⟨text, hsome, _⟩
      cases htext.symm.trans hsome
    | some text =>
      rw [MapCell.erase_of_text? htext]
      cases hget : cell.entries.get? text with
      | none =>
        refine .inl ⟨?_, rfl⟩
        rintro ⟨other, hother, hmem⟩
        cases htext.symm.trans hother
        exact OrderedMap.notMem_keys_of_get? hget hmem
      | some old => exact .inr (.inl ⟨⟨text, htext, OrderedMap.mem_keys_of_get? hget⟩, rfl⟩)
  | clear =>
    by_cases hnil : cell.entries.toList = []
    · refine .inl ⟨id, congrArg map ?_⟩
      have hempty : cell.entries = .empty := OrderedMap.ext_toList hnil
      cases cell
      cases hempty
      rfl
    · exact .inr (.inr ⟨⟨rfl, fun hvalues => hnil (List.map_eq_nil_iff.mp hvalues)⟩, rfl⟩)
  | _ => exact .inl ⟨id, rfl⟩

-- The three things that an operation can do to a container.
theorem after_cases (c : Container) (operation : Operation) :
    ¬operation.Records c ∧ operation.after c = c ∨
      operation.Records c ∧ (operation.after c).modified = true ∨
      operation.Empties c ∧ operation.after c = c.clear := by
  cases c with
  | list cell => exact after_list_cases cell operation
  | map cell => exact after_map_cases cell operation

theorem not_records_of_empties (h : operation.Empties c) : ¬operation.Records c := by
  obtain ⟨rfl, _⟩ := h
  cases c <;> exact id

theorem modified_after :
    (operation.after c).modified = true ↔ operation.Records c ∨ c.modified = true := by
  obtain ⟨hnot, heq⟩ | ⟨hrecords, hset⟩ | ⟨hempties, heq⟩ := after_cases c operation
  · rw [heq, or_iff_right hnot]
  · exact iff_of_true hset (.inl hrecords)
  · rw [heq, or_iff_right (not_records_of_empties hempties)]
    cases c <;> rfl

theorem after_of_idle (h : operation.Idle c) : operation.after c = c := by
  obtain hreads | ⟨error, herror⟩ := h
  · cases c with
    | list cell =>
      rw [after_list]
      cases operation with
      | get s key => exact congrArg list (getD_reading _ cell)
      | look | contains => rfl
      | _ => cases hreads
    | map cell =>
      rw [after_map]
      cases operation with
      | get s key => exact congrArg map (getD_reading _ cell)
      | contains s key => exact congrArg map (getD_reading _ cell)
      | look => rfl
      | _ => cases hreads
  · rw [after, herror]
    rfl

end Operation

variable {c : Container} {operations : List Operation}

-- The container after the operations.
def run (c : Container) (operations : List Operation) : Container :=
  operations.foldl Operation.after c

theorem run_concat (c : Container) (operations : List Operation) (operation : Operation) :
    c.run (operations ++ [operation]) = operation.after (c.run operations) :=
  List.foldl_concat _ _ _ _

theorem run_of_idle
    (h : ∀ before operation rest, operations = before ++ operation :: rest →
      operation.Idle (c.run before)) : c.run operations = c := by
  induction operations using List.reverseRecOn with
  | nil => rfl
  | append_singleton operations operation ih =>
    rw [run_concat, Operation.after_of_idle (h operations operation [] rfl)]
    exact ih fun before first rest heq => h before first (rest ++ [operation]) (by simp [heq])

theorem modified_run_iff : (c.run operations).modified = true ↔
    c.modified = true ∨
      Once (fun before operation => operation.Records (c.run before)) operations := by
  induction operations using List.reverseRecOn with
  | nil => exact (or_iff_left not_once_nil).symm
  | append_singleton operations operation ih =>
    rw [run_concat, Operation.modified_after, ih, once_concat, or_left_comm]

-- A container changes only where that is recorded, or where it is emptied.
theorem run_eq_or_once (c : Container) (operations : List Operation) :
    c.run operations = c ∨
      Once (fun before operation => operation.Records (c.run before)) operations ∨
      Once (fun before operation => operation.Empties (c.run before)) operations := by
  induction operations using List.reverseRecOn with
  | nil => exact .inl rfl
  | append_singleton operations operation ih =>
    rw [run_concat, once_concat, once_concat]
    obtain ⟨_, heq⟩ | ⟨hrecords, _⟩ | ⟨hempties, _⟩ :=
      Operation.after_cases (c.run operations) operation
    · rw [heq]
      exact ih.imp_right (Or.imp .inr .inr)
    · exact .inr (.inl (.inl hrecords))
    · exact .inr (.inr (.inl hempties))

-- The flag, once cleared, is set just by the operations that store or take out a value. As long as
-- it is clear the container is as it was, but for one that was emptied.
theorem modified_run (h : c.modified = false) (operations : List Operation) :
    ((c.run operations).modified = true ↔
      Once (fun before operation => operation.Records (c.run before)) operations) ∧
    (c.run operations ≠ c → (c.run operations).modified = true ∨
      Once (fun before operation => operation.Empties (c.run before)) operations) ∧
    ((∀ before operation rest, operations = before ++ operation :: rest →
      operation.Idle (c.run before)) →
      c.run operations = c ∧ (c.run operations).modified = false) := by
  have hmodified : (c.run operations).modified = true ↔
      Once (fun before operation => operation.Records (c.run before)) operations := by
    rw [modified_run_iff, h, or_iff_right Bool.false_ne_true]
  refine ⟨hmodified, fun hne => ?_, fun hidle => ?_⟩
  · rw [hmodified]
    exact (run_eq_or_once c operations).resolve_left hne
  · rw [run_of_idle hidle]
    exact ⟨rfl, h⟩

-- A list that is read and gives up its element, and one that is only read.
def single : Container := .list { element := .int, items := [.int 1] }

theorem modified_run_single : single.modified = false ∧
    (single.run [.get .empty (.int 1), .pop]).modified = true ∧
    single.run [.get .empty (.int 1), .look] = single := by
  have hclear : single.modified = false := rfl
  have hreads : ∀ operation ∈ [Operation.get .empty (.int 1), .look], operation.Reads := by
    simp [Operation.Reads]
  refine ⟨hclear, (modified_run hclear _).1.mpr ?_, ((modified_run hclear _).2.2 ?_).1⟩
  · exact ⟨[.get .empty (.int 1)], .pop, [], rfl, List.cons_ne_nil _ _, List.forall_mem_nil _⟩
  · intro before operation rest heq
    exact .inl (hreads operation (heq ▸ List.mem_append_cons_self))

-- Emptying a list changes it without a trace.
theorem not_modified_clear : single.modified = false ∧
    (single.run [.clear]).contents ≠ single.contents ∧ (single.run [.clear]).modified = false :=
  ⟨rfl, by decide, rfl⟩

end Container

end Conductor
