import Conductor.Host
import Conductor.Proofs.OrderedMap
import Conductor.Proofs.Related
import Conductor.Proofs.Store.Alike
import Conductor.Proofs.Store.Reachability

namespace Conductor

namespace HostType

-- The value stands for the data: a scalar for itself, a list or a map by a container that was made
-- for it, with what stands for its elements inside.
def Stands (s : Store) : (t : HostType) → t.Data → Value → Prop
  | bool, b, v => v = .bool b
  | int, n, v => v = .int n
  | float, x, v => v = .float x
  | string, text, v => v = .string text
  | value, data, v => v = data
  | list t, items, v => ∃ a values, v = .container a ∧
      s.find? a = some (.list { element := t.tag, items := values }) ∧
      List.Forall₂ (Stands s t) items values
  | map t, entries, v => ∃ a values, v = .container a ∧
      s.find? a = some (.map { MapCell.new .map .string t.tag with entries := values }) ∧
      List.Forall₂ (fun e f => e.1 = f.1 ∧ Stands s t e.2 f.2) entries.toList values.toList

-- Making more containers changes nothing about what is there.
theorem persistent_stands (t : HostType) : Store.Persistent fun s => Stands s t := by
  intro s u data v hext h
  induction t generalizing v with
  | list t ih =>
    obtain ⟨a, values, rfl, hfind, hall⟩ := h
    exact ⟨a, values, rfl, hext _ _ hfind, hall.imp fun _ _ h => ih _ _ h⟩
  | map t ih =>
    obtain ⟨a, values, rfl, hfind, hall⟩ := h
    exact ⟨a, values, rfl, hext _ _ hfind, hall.imp fun _ _ h => ⟨h.1, ih _ _ h.2⟩⟩
  | _ => exact h

theorem persistent_entry (t : HostType) : Store.Persistent
    fun s (e : String × t.Data) (f : String × Value) => e.1 = f.1 ∧ Stands s t e.2 f.2 :=
  fun s u e f hext h => ⟨h.1, persistent_stands t s u e.2 f.2 hext h.2⟩

-- What is made for data stands for it, and what was there before stays.
theorem builds_toValue (t : HostType) (data : t.Data) :
    Store.Builds (fun s => Stands s t) data fun s => t.toValue s data := by
  induction t with
  | list t ih =>
    intro s
    have hitems : List.Forall₂ (fun item other =>
        Store.Builds (fun s => Stands s t) item fun s => t.toValue s other) data data :=
      List.forall₂_same.mpr fun item _ => ih item
    obtain ⟨hgrow, hall⟩ := Store.builds_traverse (persistent_stands t) hitems s
    simp only [toValue]
    have hext := Store.extends_allocate (s.traverse t.toValue data).2
      (.list { element := t.tag, items := (s.traverse t.toValue data).1 })
    refine ⟨hgrow.trans hext, _, _, rfl, Store.find?_allocate_self _ _, ?_⟩
    exact Store.persistent_forall₂ (persistent_stands t) _ _ _ _ hext hall
  | map t ih =>
    intro s
    have hentries : List.Forall₂ (fun e f => Store.Builds
        (fun s (e : String × t.Data) (f : String × Value) => e.1 = f.1 ∧ Stands s t e.2 f.2) e
        fun s => ((f.1, (t.toValue s f.2).1), (t.toValue s f.2).2)) data.toList data.toList :=
      List.forall₂_same.mpr fun e _ s => ⟨(ih e.2 s).1, rfl, (ih e.2 s).2⟩
    obtain ⟨hgrow, hall⟩ := Store.builds_traverse (persistent_entry t) hentries s
    simp only [toValue]
    dsimp only at hgrow hall
    generalize s.traverse _ data.toList = built at hgrow hall ⊢
    -- the keys are those of the data, so no entry overwrites another
    have hkeys := (forall₂_entries_iff.mp hall).1
    have hlist := OrderedMap.toList_ofList (hkeys ▸ data.nodup)
    have hext := Store.extends_allocate built.2
      (.map { MapCell.new .map .string t.tag with entries := .ofList built.1 })
    refine ⟨hgrow.trans hext, _, _, rfl, Store.find?_allocate_self _ _, ?_⟩
    rw [hlist]
    exact Store.persistent_forall₂ (persistent_entry t) _ _ _ _ hext hall
  | _ => exact fun s => ⟨.refl s, rfl⟩

-- The value is of the kind that the type asks for, whatever is inside. An integer is a number, so
-- it is of the kind of a double.
inductive Admits (s : Store) : HostType → Value → Prop
  | bool (b : Bool) : Admits s bool (.bool b)
  | int (n : Int64) : Admits s int (.int n)
  | float (x : Double) : Admits s float (.float x)
  | widened (n : Int64) : Admits s float (.int n)
  | string (text : String) : Admits s string (.string text)
  | value (v : Value) : Admits s value v
  | list {t : HostType} {a : Address} {cell : ListCell} (h : s.fetch a = .list cell) :
      Admits s (list t) (.container a)
  | map {t : HostType} {a : Address} {cell : MapCell} (h : s.fetch a = .map cell) :
      Admits s (map t) (.container a)

-- The value has the shape of the type down to the last element.
inductive Shaped (s : Store) : HostType → Value → Prop
  | bool (b : Bool) : Shaped s bool (.bool b)
  | int (n : Int64) : Shaped s int (.int n)
  | float (x : Double) : Shaped s float (.float x)
  | widened (n : Int64) : Shaped s float (.int n)
  | string (text : String) : Shaped s string (.string text)
  | value (v : Value) : Shaped s value v
  | list {t : HostType} {a : Address} {cell : ListCell} (hcell : s.fetch a = .list cell)
      (h : ∀ item ∈ cell.items, Shaped s t item) : Shaped s (list t) (.container a)
  | map {t : HostType} {a : Address} {cell : MapCell} (hcell : s.fetch a = .map cell)
      (h : ∀ entry ∈ cell.entries.toList, Shaped s t entry.2) : Shaped s (map t) (.container a)

-- The last value is the first one inside the other that is not of the kind that the type asks for
-- at its place, in the order in which containers are read and before their elements.
inductive Departs (s : Store) : HostType → Value → Value → Prop
  | here {t : HostType} {v : Value} (h : ¬Admits s t v) : Departs s t v v
  | item {t : HostType} {a : Address} {cell : ListCell} {before after : List Value} {v w : Value}
      (hcell : s.fetch a = .list cell) (hitems : cell.items = before ++ v :: after)
      (hbefore : ∀ earlier ∈ before, Shaped s t earlier) (h : Departs s t v w) :
      Departs s (list t) (.container a) w
  | entry {t : HostType} {a : Address} {cell : MapCell} {before after : List (String × Value)}
      {entry : String × Value} {w : Value} (hcell : s.fetch a = .map cell)
      (hentries : cell.entries.toList = before ++ entry :: after)
      (hbefore : ∀ earlier ∈ before, Shaped s t earlier.2) (h : Departs s t entry.2 w) :
      Departs s (map t) (.container a) w

variable {s : Store} {t : HostType} {v w : Value}

theorem listCell?_of_fetch {a : Address} {cell : ListCell} (h : s.fetch a = .list cell) :
    s.listCell? (.container a) = some cell := by
  simp only [Store.listCell?, Store.container?, h]

theorem mapCell?_of_fetch {a : Address} {cell : MapCell} (h : s.fetch a = .map cell) :
    s.mapCell? (.container a) = some cell := by
  simp only [Store.mapCell?, Store.container?, h]

theorem shaped_or_departs (s : Store) (t : HostType) (v : Value) :
    Shaped s t v ∨ ∃ w, Departs s t v w := by
  induction t generalizing v with
  | list t ih =>
    by_cases h : Admits s (list t) v
    · cases h with
      | @list _ a cell hcell =>
        obtain hall | ⟨before, item, after, hitems, hbefore, w, hdeparts⟩ :=
          forall_or_exists_first cell.items fun item _ => ih item
        · exact .inl (.list hcell hall)
        · exact .inr ⟨w, .item hcell hitems hbefore hdeparts⟩
    · exact .inr ⟨v, .here h⟩
  | map t ih =>
    by_cases h : Admits s (map t) v
    · cases h with
      | @map _ a cell hcell =>
        obtain hall | ⟨before, entry, after, hentries, hbefore, w, hdeparts⟩ :=
          forall_or_exists_first cell.entries.toList fun entry _ => ih entry.2
        · exact .inl (.map hcell hall)
        · exact .inr ⟨w, .entry hcell hentries hbefore hdeparts⟩
    · exact .inr ⟨v, .here h⟩
  | _ =>
    -- A scalar has nothing inside, so its kind is its shape.
    refine (Classical.em (Admits s _ v)).imp (fun h => ?_) fun h => ⟨v, .here h⟩
    cases h <;> constructor

-- One entry of a map read as data under its key.
def entryOfValue (t : HostType) (s : Store) (entry : String × Value) :
    Except ValueError (String × t.Data) := do
  return (entry.1, ← t.ofValue s entry.2)

theorem ofValue_list {a : Address} {cell : ListCell} (h : s.fetch a = .list cell) :
    (list t).ofValue s (.container a) = cell.items.mapM (t.ofValue s) := by
  simp only [ofValue, listCell?_of_fetch h]
  rfl

theorem ofValue_map {a : Address} {cell : MapCell} (h : s.fetch a = .map cell) :
    (map t).ofValue s (.container a) =
      OrderedMap.ofList <$> cell.entries.toList.mapM (t.entryOfValue s) := by
  simp only [ofValue, mapCell?_of_fetch h]
  rfl

theorem entryOfValue_of_ok {entry : String × Value} {data : t.Data}
    (h : t.ofValue s entry.2 = .ok data) : t.entryOfValue s entry = .ok (entry.1, data) := by
  rw [entryOfValue, h]
  rfl

-- Data comes back from any value that stands for it.
theorem ofValue_of_stands {data : t.Data} (h : Stands s t data v) : t.ofValue s v = .ok data := by
  induction t generalizing v with
  | list t ih =>
    obtain ⟨a, values, rfl, hfind, hall⟩ := h
    rw [ofValue_list (Store.fetch_of_find? hfind)]
    exact mapM_of_forall₂ (hall.flip.imp fun _ _ => ih)
  | map t ih =>
    obtain ⟨a, values, rfl, hfind, hall⟩ := h
    have hentries : values.toList.mapM (t.entryOfValue s) = .ok data.toList := by
      refine mapM_of_forall₂ (hall.flip.imp fun f e h => ?_)
      rw [entryOfValue_of_ok (ih h.2), ← h.1]
    rw [ofValue_map (Store.fetch_of_find? hfind), hentries]
    exact congrArg Except.ok (OrderedMap.ofList_toList data)
  | value => exact congrArg Except.ok h
  | _ =>
    cases h
    rfl

theorem ofValue_of_shaped (h : Shaped s t v) : ∃ data, t.ofValue s v = .ok data := by
  induction h with
  | value v => exact ⟨v, rfl⟩
  | list hcell _ ih =>
    rw [ofValue_list hcell]
    obtain ⟨values, hvalues, -⟩ := mapM_ok_of_forall (R := fun _ _ => True) _ fun item hmem =>
      (ih item hmem).imp fun _ h => ⟨h, trivial⟩
    exact ⟨values, hvalues⟩
  | map hcell _ ih =>
    rw [ofValue_map hcell]
    obtain ⟨entries, hentries, -⟩ := mapM_ok_of_forall (R := fun _ _ => True) _ fun entry hmem =>
      (ih entry hmem).imp' (Prod.mk entry.1) fun _ h => ⟨entryOfValue_of_ok h, trivial⟩
    rw [hentries]
    exact ⟨.ofList entries, rfl⟩
  | _ => exact ⟨_, rfl⟩

theorem ofValue_of_not_admits (h : ¬Admits s t v) :
    t.ofValue s v = .error (.undefined .unpack (s.tag v) none) := by
  cases t with
  | bool =>
    cases v with
    | bool b => exact absurd (.bool b) h
    | _ => rfl
  | int =>
    cases v with
    | int n => exact absurd (.int n) h
    | _ => rfl
  | float =>
    cases v with
    | int n => exact absurd (.widened n) h
    | float x => exact absurd (.float x) h
    | _ => rfl
  | string =>
    cases v with
    | string text => exact absurd (.string text) h
    | _ => rfl
  | value => exact absurd (.value v) h
  | list t =>
    cases v with
    | container a =>
      cases hcell : s.fetch a with
      | list cell => exact absurd (.list hcell) h
      | map cell => simp only [ofValue, Store.listCell?, Store.container?, hcell]; rfl
    | _ => rfl
  | map t =>
    cases v with
    | container a =>
      cases hcell : s.fetch a with
      | list cell => simp only [ofValue, Store.mapCell?, Store.container?, hcell]; rfl
      | map cell => exact absurd (.map hcell) h
    | _ => rfl

-- The error of a value that is out of shape tells the type of the first one that is.
theorem ofValue_of_departs (h : Departs s t v w) :
    t.ofValue s v = .error (.undefined .unpack (s.tag w) none) := by
  induction h with
  | here h => exact ofValue_of_not_admits h
  | item hcell hitems hbefore _ ih =>
    rw [ofValue_list hcell, hitems]
    exact mapM_error_of_first (fun earlier hmem => ofValue_of_shaped (hbefore earlier hmem)) ih
  | @entry t a cell before after entry w hcell hentries hbefore _ ih =>
    have hfirst : t.entryOfValue s entry = .error (.undefined .unpack (s.tag w) none) := by
      rw [entryOfValue, ih]
      rfl
    rw [ofValue_map hcell, hentries, mapM_error_of_first (fun earlier hmem => ?_) hfirst]
    · rfl
    · have hearlier := ofValue_of_shaped (hbefore earlier hmem)
      exact hearlier.imp' (Prod.mk earlier.1) fun _ => entryOfValue_of_ok

-- Data comes back from what is made for it. A value turns into data exactly when it has the shape
-- of the type, and is refused otherwise, with the type of the first value that is out of shape.
theorem ofValue_toValue (s : Store) (t : HostType) :
    (∀ data, t.ofValue (t.toValue s data).2 (t.toValue s data).1 = .ok data) ∧
      (∀ v, (∃ data, t.ofValue s v = .ok data) ↔ Shaped s t v) ∧
      ∀ v error, t.ofValue s v = .error error ↔
        ∃ w, Departs s t v w ∧ error = .undefined .unpack (s.tag w) none := by
  refine ⟨fun data => ofValue_of_stands (builds_toValue t data s).2, fun v => ?_, fun v error => ?_⟩
  · refine ⟨fun ⟨data, hok⟩ => ?_, ofValue_of_shaped⟩
    obtain hshaped | ⟨w, hdeparts⟩ := shaped_or_departs s t v
    · exact hshaped
    · cases hok.symm.trans (ofValue_of_departs hdeparts)
  · constructor
    · intro herror
      obtain hshaped | ⟨w, hdeparts⟩ := shaped_or_departs s t v
      · obtain ⟨data, hok⟩ := ofValue_of_shaped hshaped
        cases hok.symm.trans herror
      · cases herror.symm.trans (ofValue_of_departs hdeparts)
        exact ⟨w, hdeparts, rfl⟩
    · rintro ⟨w, hdeparts, rfl⟩
      exact ofValue_of_departs hdeparts

-- The list has the kind that is asked for, its second element is the first thing in it that has
-- not.
example : (list int).ofValue
    ⟨#[some (.list { element := .any, items := [.int 1, .string "a", .bool true] })]⟩
    (.container ⟨0⟩) = .error (.undefined .unpack .string none) := rfl

end HostType

end Conductor
