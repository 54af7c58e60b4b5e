import Conductor.Proofs.MapHistory
import Conductor.Proofs.Packing

namespace Conductor

namespace Device

open OrderedMap

-- The maps that are made as records of a device.
inductive Makes (d : Device) : MapCell → Prop
  | fresh : Makes d (.record d)
  | packed {s t : Store} {readings : List (String × Value)} {v : Value} {cell : MapCell}
      (hpack : d.pack s readings = .ok (v, t)) (hcell : t.mapCell? v = some cell) : Makes d cell

-- The attributes of the device and no other names, with values that go in for their defaults.
structure Shaped (d : Device) (entries : OrderedMap String Value) : Prop where
  names : ∀ name, name ∈ entries.keys ↔ name ∈ d.attributes.map Prod.fst
  types : ∀ name kind v, (name, kind) ∈ d.attributes → entries.get? name = some v →
    ∀ s : Store, s.compatible kind.defaultValue v = true

-- What may be done to a record of the device: write an attribute with a value of its type,
-- overwrite or remove what is no attribute, and look.
def Fits (d : Device) : Event String Value → Prop
  | .put name v => d.Takes (name, v)
  | .overwrite name v => ∀ kind, (name, kind) ∈ d.attributes → kind.Takes v
  | .drop name => name ∉ d.attributes.map Prod.fst
  | .clear => False
  | .look => True

variable {d : Device} {entries : OrderedMap String Value} {name : String} {kind other : Scalar}
  {v : Value} {cell : MapCell}

theorem attributes_ne_nil (d : Device) : d.attributes ≠ [] :=
  by cases d <;> exact List.cons_ne_nil _ _

theorem kind_unique (h : (name, kind) ∈ d.attributes) (hother : (name, other) ∈ d.attributes) :
    kind = other :=
  Option.some.inj ((attribute?_eq_some_iff.mpr h).symm.trans (attribute?_eq_some_iff.mpr hother))

namespace Shaped

theorem takes (h : d.Shaped entries) (hkind : (name, kind) ∈ d.attributes)
    (hget : entries.get? name = some v) : kind.Takes v :=
  Store.compatible_defaultValue_iff.mp (h.types name kind v hkind hget .empty)

theorem of_takes (hnames : ∀ name, name ∈ entries.keys ↔ name ∈ d.attributes.map Prod.fst)
    (htakes : ∀ name kind v, (name, kind) ∈ d.attributes → entries.get? name = some v →
      kind.Takes v) : d.Shaped entries :=
  ⟨hnames, fun name kind v hkind hget _ =>
    Store.compatible_defaultValue_iff.mpr (htakes name kind v hkind hget)⟩

-- Writing under a name keeps the shape when the device takes it.
theorem insert_iff (h : d.Shaped entries) :
    d.Shaped (entries.insert name v) ↔ d.Takes (name, v) := by
  constructor
  · intro hafter
    obtain ⟨⟨_, kind⟩, hkind, rfl⟩ :=
      List.mem_map.mp ((hafter.names name).mp (mem_keys_insert entries name v))
    exact ⟨kind, hkind, hafter.takes hkind (by rw [get?_insert, if_pos rfl])⟩
  · rintro ⟨kind, hkind, htakes⟩
    have hmem : name ∈ entries.keys := (h.names name).mpr (List.mem_map_of_mem hkind)
    refine of_takes (fun first => ?_) fun first k w hk hget => ?_
    · rw [keys_insert_of_mem hmem, h.names]
    · rw [get?_insert] at hget
      split at hget
      · rename_i hsame
        cases hget
        exact kind_unique (hsame ▸ hk) hkind ▸ htakes
      · exact h.takes hk hget

theorem erase_iff (h : d.Shaped entries) :
    d.Shaped (entries.erase name) ↔ name ∉ d.attributes.map Prod.fst := by
  constructor
  · intro hafter hmem
    exact (mem_keys_erase.mp ((hafter.names name).mpr hmem)).1 rfl
  · intro hforeign
    rwa [erase_of_notMem (mt (h.names name).mp hforeign)]

-- One operation keeps the shape when it fits.
theorem on_iff (h : d.Shaped entries) (event : Event String Value) :
    d.Shaped (event.on entries) ↔ d.Fits event := by
  cases event with
  | put name v => exact h.insert_iff
  | overwrite name v =>
    rw [Event.on]
    by_cases hmem : name ∈ entries.keys
    · rw [if_pos hmem, h.insert_iff]
      obtain ⟨⟨_, kind⟩, hkind, rfl⟩ := List.mem_map.mp ((h.names name).mp hmem)
      constructor
      · rintro ⟨k, hk, htakes⟩ other hother
        exact kind_unique hk hother ▸ htakes
      · exact fun hall => ⟨kind, hkind, hall kind hkind⟩
    · rw [if_neg hmem]
      refine iff_of_true h fun kind hkind => absurd ?_ hmem
      exact (h.names name).mpr (List.mem_map_of_mem hkind)
  | drop name => exact h.erase_iff
  | clear =>
    refine iff_of_false (fun hafter => ?_) id
    obtain ⟨pair, rest, hattributes⟩ := List.exists_cons_of_ne_nil d.attributes_ne_nil
    have hmem : pair.1 ∈ d.attributes.map Prod.fst := by
      rw [hattributes]
      exact List.mem_cons_self
    exact absurd ((hafter.names pair.1).mpr hmem) List.not_mem_nil
  | look => exact iff_of_true h trivial

end Shaped

theorem takes_defaultValue (kind : Scalar) : kind.Takes kind.defaultValue := by
  cases kind <;> exact .inl rfl

theorem shaped_record (d : Device) : d.Shaped (MapCell.record d).entries := by
  have hkeys : (MapCell.record d).entries.keys = d.attributes.map Prod.fst := List.map_map
  refine .of_takes (fun name => by rw [hkeys]) fun name kind v hkind hget => ?_
  obtain ⟨⟨_, other⟩, hother, heq⟩ := List.mem_map.mp (get?_eq_some_iff.mp hget)
  cases heq
  exact kind_unique hkind hother ▸ takes_defaultValue kind

theorem shaped_filled {readings : List (String × Value)} (h : d.Shaped cell.entries)
    (htakes : ∀ reading ∈ readings, d.Takes reading) : d.Shaped (cell.filled readings).entries := by
  induction readings generalizing cell with
  | nil => exact h
  | cons reading rest ih =>
    obtain ⟨hreading, hrest⟩ := List.forall_mem_cons.mp htakes
    exact ih (h.insert_iff.mpr hreading) hrest

-- Records are made with the attributes of the device.
theorem Makes.shaped (h : d.Makes cell) : cell.object = .device d ∧ d.Shaped cell.entries := by
  cases h with
  | fresh => exact ⟨rfl, shaped_record d⟩
  | @packed s t readings v _ hpack hcell =>
    obtain ⟨htakes, hok⟩ | ⟨error, _, herror⟩ := pack_cases d s readings
    · cases hok.symm.trans hpack
      cases (Store.mapCell?_allocateValue s _).symm.trans hcell
      exact ⟨MapCell.object_filled _ _, shaped_filled (shaped_record d) htakes⟩
    · cases herror.symm.trans hpack

theorem object_apply (cell : MapCell) (action : MapCell.Action) :
    (action.apply cell).object = cell.object := by
  cases action with
  | emplace s key value =>
    rw [MapCell.Action.apply]
    cases h : cell.emplace s key value with
    | error => rfl
    | ok after => exact (Container.Writes.emplace h).sameKind.object
  | assign s key value =>
    rw [MapCell.Action.apply]
    cases h : cell.assign s key value with
    | error => rfl
    | ok result => exact (Container.Writes.assignEntry h).sameKind.object
  | erase s key =>
    rw [MapCell.Action.apply]
    cases h : cell.erase s key with
    | error => rfl
    | ok result => exact (Container.Writes.erase h).sameKind.object
  | _ => rfl

theorem object_run (cell : MapCell) (actions : List MapCell.Action) :
    (cell.run actions).object = cell.object := by
  induction actions generalizing cell with
  | nil => rfl
  | cons action rest ih => exact (ih (action.apply cell)).trans (object_apply cell action)

-- A run keeps the shape throughout when all of it fits.
theorem Shaped.run_iff (h : d.Shaped cell.entries) (actions : List MapCell.Action) :
    (∀ before, before <+: actions → d.Shaped (cell.run before).entries) ↔
      ∀ action ∈ actions, d.Fits action.event := by
  induction actions generalizing cell with
  | nil => exact iff_of_true (fun before hbefore => List.prefix_nil.mp hbefore ▸ h) nofun
  | cons action rest ih =>
    have hstep : d.Shaped (action.apply cell).entries ↔ d.Fits action.event := by
      rw [action.entries_apply, h.on_iff]
    rw [List.forall_mem_cons, ← hstep]
    constructor
    · intro hall
      have hfirst : d.Shaped (action.apply cell).entries :=
        hall [action] (List.prefix_cons_inj action |>.mpr (List.nil_prefix))
      exact ⟨hfirst, (ih hfirst).mp fun before hbefore =>
        hall (action :: before) ((List.prefix_cons_inj action).mpr hbefore)⟩
    · rintro ⟨hfirst, hrest⟩ before hbefore
      obtain rfl | ⟨before, rfl, hprefix⟩ := List.prefix_cons_iff.mp hbefore
      · exact h
      · exact (ih hfirst).mpr hrest before hprefix

-- A record unpacks to what it has under the attributes, or there is a first one that it lacks.
theorem unpack_cases {t : Store} (hcell : t.mapCell? v = some cell)
    (hobject : cell.object = .device d) :
    (∃ attributes, unpack t v = .ok (d, attributes) ∧ List.Forall₂ (fun pair shown =>
        shown.1 = pair.1 ∧ cell.entries.get? pair.1 = some shown.2) d.attributes attributes) ∨
      ∃ before pair after, d.attributes = before ++ pair :: after ∧
        (∀ earlier ∈ before, earlier.1 ∈ cell.entries.keys) ∧ pair.1 ∉ cell.entries.keys ∧
        unpack t v = .error (.keyNotFound pair.1) := by
  have hget (pair : String × Scalar) : cell.get t (.string pair.1) =
      (cell.entries.get? pair.1).elim (.error (.keyNotFound pair.1)) .ok := MapCell.get_of_text? rfl
  have hfound : ∀ pair ∈ d.attributes, pair.1 ∈ cell.entries.keys →
      ∃ shown,
        (do return (pair.1, ← cell.get t (.string pair.1)) : Except ValueError _) = .ok shown ∧
        shown.1 = pair.1 ∧ cell.entries.get? pair.1 = some shown.2 := by
    intro pair _ hmem
    obtain ⟨value, hvalue⟩ := Option.isSome_iff_exists.mp (mem_keys_iff.mp hmem)
    exact ⟨(pair.1, value), by rw [hget, hvalue]; rfl, rfl, hvalue⟩
  have hunpack : unpack t v = (do
      let attributes ← d.attributes.mapM fun pair => do
        return (pair.1, ← cell.get t (.string pair.1))
      return (d, attributes)) := by
    simp only [unpack, hcell, hobject]
  rw [hunpack]
  obtain hall | ⟨before, pair, after, heq, hbefore, hmissing⟩ :=
    forall_or_exists_first d.attributes fun pair _ => Classical.em (pair.1 ∈ cell.entries.keys)
  · obtain ⟨attributes, hok, hrelated⟩ :=
      mapM_ok_of_forall d.attributes fun pair hpair => hfound pair hpair (hall pair hpair)
    rw [hok]
    exact .inl ⟨attributes, rfl, hrelated⟩
  · refine .inr ⟨before, pair, after, heq, hbefore, hmissing, ?_⟩
    have hnone : cell.entries.get? pair.1 = none := by
      rwa [mem_keys_iff, Option.not_isSome_iff_eq_none] at hmissing
    have hfails : (do return (pair.1, ← cell.get t (.string pair.1)) :
        Except ValueError (String × Value)) = .error (.keyNotFound pair.1) := by
      rw [hget, hnone]
      rfl
    have hpasses : ∀ earlier ∈ before, ∃ shown,
        (do return (earlier.1, ← cell.get t (.string earlier.1)) : Except ValueError _) =
          .ok shown := by
      intro earlier hearlier
      obtain ⟨shown, hshown, _⟩ :=
        hfound earlier (by simp [heq, hearlier]) (hbefore earlier hearlier)
      exact ⟨shown, hshown⟩
    rw [heq, mapM_error_of_first hpasses hfails]
    rfl

-- What unpacking a record tells of it.
structure Unpacks (d : Device) (cell : MapCell) (t : Store) (v : Value) : Prop where
  ok_iff : (∃ attributes, unpack t v = .ok (d, attributes)) ↔
    ∀ name ∈ d.attributes.map Prod.fst, name ∈ cell.entries.keys
  shows : ∀ attributes, unpack t v = .ok (d, attributes) → List.Forall₂ (fun pair shown =>
    shown.1 = pair.1 ∧ cell.entries.get? pair.1 = some shown.2) d.attributes attributes
  lacks : ∀ error, unpack t v = .error error → ∃ before pair after,
    d.attributes = before ++ pair :: after ∧
      (∀ earlier ∈ before, earlier.1 ∈ cell.entries.keys) ∧ pair.1 ∉ cell.entries.keys ∧
      error = .keyNotFound pair.1

theorem unpacks_of_object {t : Store} (hcell : t.mapCell? v = some cell)
    (hobject : cell.object = .device d) : d.Unpacks cell t v := by
  obtain ⟨attributes, hok, hrelated⟩ | ⟨before, pair, after, heq, hbefore, hmissing, herror⟩ :=
    unpack_cases hcell hobject
  · refine ⟨iff_of_true ⟨attributes, hok⟩ fun name hname => ?_, fun other hother => ?_,
      fun error herror => ?_⟩
    · obtain ⟨pair, hpair, rfl⟩ := List.mem_map.mp hname
      obtain ⟨shown, _, _, hget⟩ := exists_mem_of_forall₂ hrelated hpair
      exact mem_keys_of_get? hget
    · cases hok.symm.trans hother
      exact hrelated
    · cases hok.symm.trans herror
  · refine ⟨iff_of_false ?_ fun hall => hmissing (hall pair.1 ?_), fun other hother => ?_,
      fun error hother => ?_⟩
    · rintro ⟨attributes, hok⟩
      cases herror.symm.trans hok
    · exact List.mem_map_of_mem (heq ▸ List.mem_append_cons_self)
    · cases herror.symm.trans hother
    · cases herror.symm.trans hother
      exact ⟨before, pair, after, heq, hbefore, hmissing, rfl⟩

-- A record has its shape after every operation just when all of them fit the device, and then it
-- unpacks. It unpacks as long as it has every attribute.
theorem shaped_iff_fits (h : d.Makes cell) (actions : List MapCell.Action) :
    (cell.run actions).object = .device d ∧
      ((∀ before, before <+: actions → d.Shaped (cell.run before).entries) ↔
        ∀ action ∈ actions, d.Fits action.event) ∧
      ∀ t v, t.mapCell? v = some (cell.run actions) →
        d.Unpacks (cell.run actions) t v ∧
          ((∀ action ∈ actions, d.Fits action.event) →
            ∃ attributes, unpack t v = .ok (d, attributes)) := by
  obtain ⟨hobject, hshaped⟩ := h.shaped
  have hrun : (cell.run actions).object = .device d := (object_run cell actions).trans hobject
  refine ⟨hrun, hshaped.run_iff actions, fun t v hcell => ?_⟩
  have hunpacks := unpacks_of_object hcell hrun
  refine ⟨hunpacks, fun hfits => hunpacks.ok_iff.mpr fun name hname => ?_⟩
  have hafter := (hshaped.run_iff actions).mpr hfits actions (List.prefix_refl actions)
  exact (hafter.names name).mpr hname

-- A reading and a correction, a key that no map takes, and the removal of what is not there.
def keptActions : List MapCell.Action :=
  [.emplace .empty (.string "humidity") (.int 40), .assign .empty (.string "humidity") (.int 41),
    .emplace .empty .void (.bool true), .erase .empty (.string "volume")]

theorem shaped_iff_fits_kept : dht11.Makes (.record dht11) ∧
    dht11.Shaped ((MapCell.record dht11).run keptActions).entries ∧
      ∃ attributes,
        unpack (Store.empty.allocateValue (.map ((MapCell.record dht11).run keptActions))).2
          (Store.empty.allocateValue (.map ((MapCell.record dht11).run keptActions))).1 =
            .ok (dht11, attributes) := by
  have hmakes : dht11.Makes (.record dht11) := .fresh
  have hhumidity : ("humidity", Scalar.float) ∈ dht11.attributes := by decide
  have hvolume : "volume" ∉ dht11.attributes.map Prod.fst := by decide
  have hfits : ∀ action ∈ keptActions, dht11.Fits action.event := by
    simp only [keptActions, List.forall_mem_cons, List.not_mem_nil, false_implies, implies_true,
      and_true]
    refine ⟨⟨.float, hhumidity, .inr ⟨rfl, rfl⟩⟩, fun kind hkind => ?_, trivial, hvolume⟩
    exact kind_unique hhumidity hkind ▸ .inr ⟨rfl, rfl⟩
  obtain ⟨_, hshaped, hunpacks⟩ := shaped_iff_fits hmakes keptActions
  exact ⟨hmakes, hshaped.mpr hfits _ (List.prefix_refl _),
    (hunpacks _ _ (Store.mapCell?_allocateValue _ _)).2 hfits⟩

-- A record that was cleared does not unpack. One with a name or a type put in that are not the
-- device's own does, though it has lost its shape.
theorem not_shaped_cleared : button.Makes (.record button) ∧
    (¬button.Shaped ((MapCell.record button).run [.clear]).entries ∧
      unpack (Store.empty.allocateValue (.map ((MapCell.record button).run [.clear]))).2
        (Store.empty.allocateValue (.map ((MapCell.record button).run [.clear]))).1 =
          .error (.keyNotFound "pressed")) ∧
    ¬button.Shaped ((MapCell.record button).run
      [.emplace .empty (.string "volume") (.int 1)]).entries ∧
    ¬button.Shaped ((MapCell.record button).run
      [.assign .empty (.string "pressed") (.int 1)]).entries := by
  have hfits (action : MapCell.Action)
      (h : button.Shaped ((MapCell.record button).run [action]).entries) :
      button.Fits action.event := by
    rw [← (shaped_record button).on_iff, ← action.entries_apply]
    exact h
  have hvolume : button.attribute? "volume" = none := by decide
  refine ⟨.fresh, ⟨hfits .clear, rfl⟩, fun h => ?_, fun h => ?_⟩
  · obtain ⟨kind, hkind, _⟩ := hfits _ h
    cases hvolume.symm.trans (attribute?_eq_some_iff.mpr hkind)
  · have htakes : Scalar.bool.Takes (.int 1) := hfits _ h .bool (by decide)
    simp [Scalar.Takes, Value.kind?, Scalar.tag, Tag.isNumeric] at htakes

end Device

end Conductor
