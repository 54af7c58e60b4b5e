import Conductor.Proofs.Keys
import Conductor.Proofs.OrderedMap
import Conductor.Proofs.Store.Writing

namespace Conductor

section Since

variable {ε : Type} {P : List ε → ε → Prop} {Q : ε → Prop} {history : List ε} {event : ε}

-- Some event has P of what was before it, and every one since then has Q.
def Since (P : List ε → ε → Prop) (Q : ε → Prop) (history : List ε) : Prop :=
  ∃ before event after, history = before ++ event :: after ∧ P before event ∧
    ∀ later ∈ after, Q later

theorem not_since_nil : ¬Since P Q [] := by
  rintro ⟨before, event, after, h, _⟩
  exact List.append_ne_nil_of_right_ne_nil before (List.cons_ne_nil event after) h.symm

theorem since_concat :
    Since P Q (history ++ [event]) ↔ P history event ∨ Q event ∧ Since P Q history := by
  constructor
  · rintro ⟨before, first, after, h, hP, hQ⟩
    obtain rfl | ⟨after, last, rfl⟩ := List.eq_nil_or_concat' after
    · obtain ⟨rfl, hlast⟩ := List.append_inj' h rfl
      cases hlast
      exact .inl hP
    · rw [← List.cons_append, ← List.append_assoc] at h
      obtain ⟨rfl, hlast⟩ := List.append_inj' h rfl
      cases hlast
      rw [List.forall_mem_append, List.forall_mem_singleton] at hQ
      exact .inr ⟨hQ.2, before, first, after, rfl, hP, hQ.1⟩
  · rintro (hP | ⟨hlast, before, first, after, rfl, hP, hQ⟩)
    · exact ⟨history, event, [], rfl, hP, List.forall_mem_nil Q⟩
    · refine ⟨before, first, after ++ [event], by rw [List.append_assoc, List.cons_append], hP, ?_⟩
      rw [List.forall_mem_append, List.forall_mem_singleton]
      exact ⟨hQ, hlast⟩

theorem Since.exists_mem (h : Since P Q history) : ∃ event ∈ history, ∃ before, P before event := by
  obtain ⟨before, event, after, rfl, hP, _⟩ := h
  exact ⟨event, List.mem_append_cons_self, before, hP⟩

theorem Since.imp {P' : List ε → ε → Prop} (h : Since P Q history)
    (himp : ∀ before event, P before event → P' before event) : Since P' Q history := by
  obtain ⟨before, event, after, heq, hP, hQ⟩ := h
  exact ⟨before, event, after, heq, himp before event hP, hQ⟩

end Since

namespace OrderedMap

variable {κ α : Type}

-- What is done to a map. Nothing is overwritten but what is there.
inductive Event (κ α : Type)
  | put (key : κ) (value : α)
  | overwrite (key : κ) (value : α)
  | drop (key : κ)
  | clear
  | look

namespace Event

def Writes (key : κ) (value : α) (event : Event κ α) : Prop :=
  event = put key value ∨ event = overwrite key value

def Removes (key : κ) (event : Event κ α) : Prop := event = drop key ∨ event = clear

def Puts (key : κ) (event : Event κ α) : Prop := ∃ value, event = put key value

-- The key came in and was not removed since.
def Present (key : κ) : List (Event κ α) → Prop :=
  Since (fun _ event => event.Puts key) fun later => ¬later.Removes key

-- The value was written under the key, and the key was not written or removed since.
def Written (key : κ) (value : α) : List (Event κ α) → Prop :=
  Since (fun before event =>
      event = put key value ∨ event = overwrite key value ∧ Present key before)
    fun later => ¬later.Removes key ∧ ∀ other, ¬later.Writes key other

-- The key came in at this place where it was absent, and was not removed since.
def Born (key : κ) (place : Nat) : List (Event κ α) → Prop :=
  Since (fun before event => before.length = place ∧ event.Puts key ∧ ¬Present key before)
    fun later => ¬later.Removes key

variable {history : List (Event κ α)} {event : Event κ α} {key : κ} {place : Nat}

theorem present_of_born (h : Born key place history) : Present key history :=
  h.imp fun _ _ hborn => hborn.2.1

theorem exists_born_of_present (h : Present key history) : ∃ place, Born key place history := by
  induction history using List.reverseRecOn with
  | nil => exact absurd h not_since_nil
  | append_singleton history event ih =>
    by_cases hpresent : Present key history
    · obtain ⟨place, hborn⟩ := ih hpresent
      obtain hputs | ⟨hkept, _⟩ := since_concat.mp h
      · obtain ⟨value, rfl⟩ := hputs
        exact ⟨place, since_concat.mpr (.inr ⟨by simp [Removes], hborn⟩)⟩
      · exact ⟨place, since_concat.mpr (.inr ⟨hkept, hborn⟩)⟩
    · obtain hputs | ⟨_, hbefore⟩ := since_concat.mp h
      · exact ⟨history.length, since_concat.mpr (.inl ⟨rfl, hputs, hpresent⟩)⟩
      · exact absurd hbefore hpresent

theorem lt_length_of_born (h : Born key place history) : place < history.length := by
  obtain ⟨before, event, after, rfl, ⟨rfl, _⟩, _⟩ := h
  rw [List.length_append, List.length_cons]
  omega

-- What was there before has its place from before.
theorem born_of_present (hpresent : Present key history)
    (h : Born key place (history ++ [event])) : Born key place history := by
  obtain ⟨_, _, habsent⟩ | ⟨_, hborn⟩ := since_concat.mp h
  · exact absurd hpresent habsent
  · exact hborn

section Replay

variable [DecidableEq κ] {m : OrderedMap κ α} {value : α}

def on : Event κ α → OrderedMap κ α → OrderedMap κ α
  | put key value, m => m.insert key value
  | overwrite key value, m => if key ∈ m.keys then m.insert key value else m
  | drop key, m => m.erase key
  | clear, _ => .empty
  | look, m => m

def replay (m : OrderedMap κ α) (history : List (Event κ α)) : OrderedMap κ α :=
  history.foldl (fun m event => event.on m) m

-- The keys stay, or one is put behind them.
theorem keys_on_cases (event : Event κ α) (m : OrderedMap κ α) :
    (event.on m).keys.Sublist m.keys ∨
      ∃ key, event.Puts key ∧ key ∉ m.keys ∧ (event.on m).keys = m.keys ++ [key] := by
  cases event with
  | put key value =>
    by_cases hkey : key ∈ m.keys
    · rw [on, keys_insert_of_mem hkey]
      exact .inl (List.Sublist.refl _)
    · refine .inr ⟨key, ⟨value, rfl⟩, hkey, ?_⟩
      simp only [on, insert, keys, insertEntry_of_notMem hkey, List.map_append, List.map_cons,
        List.map_nil]
  | overwrite key value =>
    rw [on]
    split
    · rename_i hkey
      rw [keys_insert_of_mem hkey]
      exact .inl (List.Sublist.refl _)
    · exact .inl (List.Sublist.refl _)
  | drop key => exact .inl (List.filter_sublist.map Prod.fst)
  | clear => exact .inl (List.nil_sublist _)
  | look => exact .inl (List.Sublist.refl _)

-- A map as its history has it. Keys that are there were born one after the other.
structure Follows (m : OrderedMap κ α) (history : List (Event κ α)) : Prop where
  get : ∀ key value, m.get? key = some value ↔ Written key value history
  mem : ∀ key, key ∈ m.keys ↔ Present key history
  order : m.keys.Pairwise fun a b => ∀ i j, Born a i history → Born b j history → i < j

namespace Follows

theorem nil : Follows (.empty : OrderedMap κ α) [] where
  get _ _ := iff_of_false nofun not_since_nil
  mem _ := iff_of_false List.not_mem_nil not_since_nil
  order := .nil

theorem mem_on (h : Follows m history) (event : Event κ α) (key : κ) :
    key ∈ (event.on m).keys ↔ Present key (history ++ [event]) := by
  rw [Present, since_concat, ← Present, ← h.mem]
  cases event with
  | put first second =>
    rw [on, insert, keys, mem_keys_insertEntry, ← keys]
    simp [Puts, Removes, eq_comm]
  | overwrite first second =>
    rw [on]
    split
    · rename_i hfirst
      rw [keys_insert_of_mem hfirst]
      simp [Puts, Removes]
    · simp [Puts, Removes]
  | drop first =>
    rw [on, mem_keys_erase]
    simp [Puts, Removes, eq_comm]
  | clear => simp [on, keys, empty, Puts, Removes]
  | look => simp [on, Puts, Removes]

theorem get_on (h : Follows m history) (event : Event κ α) (key : κ) (value : α) :
    (event.on m).get? key = some value ↔ Written key value (history ++ [event]) := by
  rw [Written, since_concat, ← Written, ← h.get, ← h.mem]
  cases event with
  | put first second =>
    rw [on, get?_insert]
    by_cases hkey : key = first
    · subst hkey
      simp [Writes, Removes, eq_comm]
    · simp [Writes, Removes, hkey, Ne.symm hkey]
  | overwrite first second =>
    rw [on]
    by_cases hfirst : first ∈ m.keys
    · rw [if_pos hfirst, get?_insert]
      by_cases hkey : key = first
      · subst hkey
        simp [Writes, Removes, hfirst, eq_comm]
      · simp [Writes, Removes, hkey, Ne.symm hkey]
    · rw [if_neg hfirst]
      by_cases hkey : key = first
      · subst hkey
        have hmissing : m.get? key ≠ some value := fun hget => hfirst (mem_keys_of_get? hget)
        simp [Writes, Removes, hfirst, hmissing]
      · simp [Writes, Removes, Ne.symm hkey]
  | drop first =>
    rw [on, get?_erase]
    by_cases hkey : key = first
    · simp [Writes, Removes, hkey]
    · simp [Writes, Removes, hkey, Ne.symm hkey]
  | clear => simp [on, get?, empty, Writes, Removes]
  | look => simp [on, Writes, Removes]

theorem order_on (h : Follows m history) (event : Event κ α) :
    (event.on m).keys.Pairwise fun a b => ∀ i j, Born a i (history ++ [event]) →
      Born b j (history ++ [event]) → i < j := by
  have hold : m.keys.Pairwise fun a b => ∀ i j, Born a i (history ++ [event]) →
      Born b j (history ++ [event]) → i < j :=
    h.order.imp_of_mem fun ha hb hlt i j hi hj => hlt i j (born_of_present ((h.mem _).mp ha) hi)
      (born_of_present ((h.mem _).mp hb) hj)
  obtain hsublist | ⟨key, _, hfresh, hkeys⟩ := keys_on_cases event m
  · exact hold.sublist hsublist
  · rw [hkeys, List.pairwise_append]
    refine ⟨hold, List.pairwise_singleton _ _, fun a ha b hb i j hi hj => ?_⟩
    cases List.mem_singleton.mp hb
    have hbefore := lt_length_of_born (born_of_present ((h.mem a).mp ha) hi)
    obtain ⟨hplace, _⟩ | ⟨_, hborn⟩ := since_concat.mp hj
    · exact hplace ▸ hbefore
    · exact absurd ((h.mem _).mpr (present_of_born hborn)) hfresh

theorem on (h : Follows m history) (event : Event κ α) :
    Follows (event.on m) (history ++ [event]) where
  get := h.get_on event
  mem := h.mem_on event
  order := h.order_on event

theorem replay_append {before : List (Event κ α)} (h : Follows m before)
    (history : List (Event κ α)) : Follows (Event.replay m history) (before ++ history) := by
  induction history generalizing m before with
  | nil => rwa [List.append_nil]
  | cons event rest ih =>
    rw [List.append_cons]
    exact ih (h.on event)

end Follows

end Replay

end Event

end OrderedMap

namespace MapCell

open OrderedMap

-- An operation on a map. Those with a key take the store that tells the type of a wrong one.
inductive Action
  | emplace (s : Store) (key value : Value)
  | assign (s : Store) (key value : Value)
  | erase (s : Store) (key : Value)
  | clear
  | get (s : Store) (key : Value)
  | contains (s : Store) (key : Value)
  | keys
  | values
  | entries

namespace Action

-- The map after the operation. One that fails leaves it as it is, and so does one that only reads.
def apply (cell : MapCell) : Action → MapCell
  | emplace s key value => (cell.emplace s key value).toOption.getD cell
  | assign s key value => ((cell.assign s key value).toOption.map Prod.snd).getD cell
  | erase s key => ((cell.erase s key).toOption.map Prod.snd).getD cell
  | clear => cell.clear
  | get .. | contains .. | keys | values | entries => cell

-- What the operation does to the map, by the text of its key.
def event : Action → Event String Value
  | emplace _ key value => key.text?.elim .look (.put · value)
  | assign _ key value => key.text?.elim .look (.overwrite · value)
  | erase _ key => key.text?.elim .look .drop
  | clear => .clear
  | get .. | contains .. | keys | values | entries => .look

theorem entries_apply (cell : MapCell) (action : Action) :
    (action.apply cell).entries = action.event.on cell.entries := by
  cases action with
  | emplace s key value =>
    cases htext : key.text? with
    | none => simp only [apply, event, MapCell.emplace, mapKey_of_text?_eq_none htext, htext]; rfl
    | some text => simp only [apply, event, emplace_of_text? htext, htext]; rfl
  | assign s key value =>
    cases htext : key.text? with
    | none => simp only [apply, event, MapCell.assign, mapKey_of_text?_eq_none htext, htext]; rfl
    | some text =>
      rw [apply, assign_of_text? htext, event, htext, Option.elim_some, Event.on]
      cases hget : cell.entries.get? text with
      | none => rw [if_neg (notMem_keys_of_get? hget)]; rfl
      | some old => rw [if_pos (mem_keys_of_get? hget)]; rfl
  | erase s key =>
    cases htext : key.text? with
    | none => simp only [apply, event, MapCell.erase, mapKey_of_text?_eq_none htext, htext]; rfl
    | some text =>
      rw [apply, erase_of_text? htext, event, htext, Option.elim_some, Event.on]
      cases hget : cell.entries.get? text with
      | none => exact (erase_of_notMem (notMem_keys_of_get? hget)).symm
      | some old => rfl
  | _ => rfl

end Action

-- The map after the operations.
def run (cell : MapCell) (actions : List Action) : MapCell := actions.foldl Action.apply cell

-- The entries that a map starts with, as if they had been put there.
def origin (cell : MapCell) : List (Event String Value) :=
  cell.entries.toList.map fun entry => .put entry.1 entry.2

theorem entries_run (cell : MapCell) (actions : List Action) :
    (cell.run actions).entries = Event.replay cell.entries (actions.map Action.event) := by
  induction actions generalizing cell with
  | nil => rfl
  | cons action rest ih =>
    rw [List.map_cons, Event.replay, List.foldl_cons, ← action.entries_apply]
    exact ih (action.apply cell)

theorem replay_origin (cell : MapCell) : Event.replay .empty cell.origin = cell.entries := by
  rw [origin, Event.replay, List.foldl_map]
  exact ofList_toList cell.entries

theorem follows_run (cell : MapCell) (actions : List Action) :
    Event.Follows (cell.run actions).entries (cell.origin ++ actions.map Action.event) := by
  have horigin := Event.Follows.nil.replay_append cell.origin
  rw [replay_origin] at horigin
  rw [entries_run]
  exact horigin.replay_append _

-- What a map shows of its history, by whatever keys.
structure Shows (cell : MapCell) (history : List (Event String Value)) : Prop where
  distinct : cell.entries.keys.Nodup
  found : ∀ s key text value, key.text? = some text → Event.Written text value history →
    cell.get s key = .ok value
  missing : ∀ s key text, key.text? = some text → (∀ value, ¬Event.Written text value history) →
    cell.get s key = .error (.keyNotFound text)
  contains : ∀ s key text, key.text? = some text →
    cell.contains s key = .ok (cell.get s key).isOk
  entries : ∀ text value, (text, value) ∈ cell.entries.toList ↔ Event.Written text value history
  born : ∀ text, text ∈ cell.entries.keys ↔ ∃ place, Event.Born text place history
  order : cell.entries.keys.Pairwise fun a b =>
    ∀ i j, Event.Born a i history → Event.Born b j history → i < j
  listings : cell.entries.keys = cell.entries.toList.map Prod.fst ∧
    (Container.map cell).contents = cell.entries.toList.map Prod.snd ∧
    (Container.map cell).size = cell.entries.toList.length

-- Whatever is done to a map, it shows its history: by the text of a key what was written there
-- last, and the keys in the order in which they came in where they were absent.
theorem shows_run (cell : MapCell) (actions : List Action) :
    (cell.run actions).Shows (cell.origin ++ actions.map Action.event) := by
  have hfollows := cell.follows_run actions
  refine ⟨(cell.run actions).entries.nodup, ?_, ?_, ?_, ?_, ?_, hfollows.order, rfl, rfl, ?_⟩
  · intro s key text value htext hwritten
    rw [get_of_text? htext, (hfollows.get text value).mpr hwritten]
    rfl
  · intro s key text htext hmissing
    have hnone : (cell.run actions).entries.get? text = none := by
      refine Option.eq_none_iff_forall_ne_some.mpr fun value hget => hmissing value ?_
      exact (hfollows.get text value).mp hget
    rw [get_of_text? htext, hnone]
    rfl
  · intro s key text htext
    rw [get_of_text? htext, contains_of_text? htext, OrderedMap.contains]
    cases (cell.run actions).entries.get? text <;> rfl
  · intro text value
    rw [← get?_eq_some_iff, hfollows.get]
  · intro text
    rw [hfollows.mem]
    exact ⟨Event.exists_born_of_present, fun ⟨_, hborn⟩ => Event.present_of_born hborn⟩
  · exact List.length_map _

-- An integer and the double that is spelled like it are one key. The other key is removed and comes
-- in again.
def mixedActions : List Action :=
  [.emplace .empty (.string "b") (.int 1), .emplace .empty (.int 3) (.int 2),
    .erase .empty (.string "b"), .emplace .empty (.string "b") (.int 4),
    .assign .empty (.float ⟨0x4008000000000000⟩) (.int 5)]

theorem shows_run_mixed :
    ((new .map .string .int).run mixedActions).get .empty (.string "3") = .ok (.int 5) ∧
      ((new .map .string .int).run mixedActions).get .empty (.bool true) =
        .error (.keyNotFound "true") ∧
      ((new .map .string .int).run mixedActions).entries.keys = ["3", "b"] := by
  have hthree : (Value.float ⟨0x4008000000000000⟩).text? = some "3" := by decide +kernel
  have hhistory : (new .map .string .int).origin ++ mixedActions.map Action.event =
      [.put "b" (.int 1), .put "3" (.int 2), .drop "b", .put "b" (.int 4),
        .overwrite "3" (.int 5)] := by
    simp only [mixedActions, List.map_cons, Action.event, hthree]
    rfl
  have hshows := (new .map .string .int).shows_run mixedActions
  rw [hhistory] at hshows
  have hpresent : Event.Present "3" [.put "b" (Value.int 1), .put "3" (Value.int 2), .drop "b",
      .put "b" (Value.int 4)] :=
    ⟨[_], _, [_, _], rfl, ⟨_, rfl⟩, by simp [Event.Removes]⟩
  refine ⟨hshows.found .empty (.string "3") "3" (.int 5) rfl ?_,
    hshows.missing .empty (.bool true) "true" rfl fun value hwritten => ?_, by decide +kernel⟩
  · exact ⟨_, _, [], rfl, .inr ⟨rfl, hpresent⟩, List.forall_mem_nil _⟩
  · obtain ⟨event, hmem, _, hwrites⟩ := hwritten.exists_mem
    simp only [List.mem_cons, List.not_mem_nil, or_false] at hmem
    rcases hmem with rfl | rfl | rfl | rfl | rfl <;> simp at hwrites

end MapCell

end Conductor
