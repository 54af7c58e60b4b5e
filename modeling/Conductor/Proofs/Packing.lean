import Conductor.Packing
import Conductor.Proofs.Related
import Conductor.Proofs.Store.Alike
import Conductor.Proofs.Store.Samples

namespace Conductor

-- A scalar of the type, or any number where the type is one of numbers.
def Scalar.Takes (kind : Scalar) (v : Value) : Prop :=
  v.kind? = some kind ∨ (kind.tag.isNumeric ∧ v.isNumeric)

namespace Store

variable {s : Store}

-- The default of a scalar type stands for what the type takes.
theorem compatible_defaultValue_iff {kind : Scalar} {v : Value} :
    s.compatible kind.defaultValue v = true ↔ kind.Takes v := by
  cases kind <;> cases v <;>
    simp [compatible, compatibleWithin, tag, Scalar.defaultValue, Scalar.Takes, Value.kind?,
      Scalar.tag, Tag.compatible, Tag.isNumeric, Value.isNumeric]

theorem mapCell?_allocateValue (s : Store) (cell : MapCell) :
    (s.allocateValue (.map cell)).2.mapCell? (s.allocateValue (.map cell)).1 = some cell := by
  have hfetch := fetch_of_find? (find?_allocate_self s (.map cell))
  simp only [allocateValue, mapCell?, container?, hfetch]

end Store

namespace MapCell

-- The record with the readings put in, whatever they are.
def filled (cell : MapCell) (readings : List (String × Value)) : MapCell :=
  readings.foldl (fun cell reading =>
    { cell with entries := cell.entries.insert reading.1 reading.2, modified := true }) cell

theorem object_filled (cell : MapCell) (readings : List (String × Value)) :
    (cell.filled readings).object = cell.object := by
  induction readings generalizing cell with
  | nil => rfl
  | cons reading rest ih => exact ih _

theorem entries_filled (cell : MapCell) (readings : List (String × Value)) :
    (cell.filled readings).entries =
      readings.foldl (fun m entry => m.insert entry.1 entry.2) cell.entries := by
  induction readings generalizing cell with
  | nil => rfl
  | cons reading rest ih => exact ih _

end MapCell

namespace Device

variable {d : Device} {s : Store} {cell : MapCell} {reading : String × Value}
  {readings : List (String × Value)} {error : ValueError}

theorem attribute?_eq_some_iff {name : String} {kind : Scalar} :
    d.attribute? name = some kind ↔ (name, kind) ∈ d.attributes :=
  OrderedMap.lookup_eq_some_iff_mem d.nodup_attributes

-- The device has the attribute that is read, and the attribute takes the value.
def Takes (d : Device) (reading : String × Value) : Prop :=
  ∃ kind, (reading.1, kind) ∈ d.attributes ∧ kind.Takes reading.2

-- Why a reading is not taken.
inductive Refuses (d : Device) (s : Store) : String × Value → ValueError → Prop
  | unknown {name : String} {v : Value} (h : name ∉ d.attributes.map Prod.fst) :
      Refuses d s (name, v) (.keyNotFound name)
  | unfit {name : String} {v : Value} {kind : Scalar} (hkind : (name, kind) ∈ d.attributes)
      (h : ¬kind.Takes v) : Refuses d s (name, v) (.undefined .pack kind.tag (some (s.tag v)))

-- The first of some readings that is not taken, and why.
inductive FirstRefusal (d : Device) (s : Store) : List (String × Value) → ValueError → Prop
  | intro {before after : List (String × Value)} {reading : String × Value} {error : ValueError}
      (hbefore : ∀ earlier ∈ before, d.Takes earlier) (h : d.Refuses s reading error) :
      FirstRefusal d s (before ++ reading :: after) error

theorem Refuses.not_takes (h : d.Refuses s reading error) : ¬d.Takes reading := by
  rintro ⟨kind, hkind, htakes⟩
  cases h with
  | unknown habsent => exact habsent (List.mem_map_of_mem hkind)
  | unfit hmem hunfit =>
    have hsame := (attribute?_eq_some_iff.mpr hmem).symm.trans (attribute?_eq_some_iff.mpr hkind)
    obtain rfl := Option.some.inj hsame
    exact hunfit htakes

theorem FirstRefusal.not_forall (h : d.FirstRefusal s readings error) :
    ¬∀ reading ∈ readings, d.Takes reading := by
  obtain ⟨_, hrefuses⟩ := h
  intro hall
  exact hrefuses.not_takes (hall _ (List.mem_append_right _ List.mem_cons_self))

-- One reading is put in, or it is refused.
theorem packReading_cases (d : Device) (s : Store) (cell : MapCell) (reading : String × Value) :
    d.Takes reading ∧ d.packReading s cell reading = .ok (cell.filled [reading]) ∨
      ∃ error, d.Refuses s reading error ∧ d.packReading s cell reading = .error error := by
  obtain ⟨name, v⟩ := reading
  rw [packReading]
  cases hkind : d.attribute? name with
  | none =>
    refine .inr ⟨_, .unknown fun hmem => ?_, rfl⟩
    obtain ⟨⟨_, kind⟩, hattribute, rfl⟩ := List.mem_map.mp hmem
    rw [attribute?_eq_some_iff.mpr hattribute] at hkind
    cases hkind
  | some kind =>
    have hattribute := attribute?_eq_some_iff.mp hkind
    by_cases htakes : kind.Takes v
    · refine .inl ⟨⟨kind, hattribute, htakes⟩, ?_⟩
      exact if_pos (Store.compatible_defaultValue_iff.mpr htakes)
    · refine .inr ⟨_, .unfit hattribute htakes, ?_⟩
      have hunfit : ¬s.compatible kind.defaultValue v = true :=
        fun h => htakes (Store.compatible_defaultValue_iff.mp h)
      exact if_neg hunfit

theorem foldlM_packReading_cases (d : Device) (s : Store) (cell : MapCell)
    (readings : List (String × Value)) :
    (∀ reading ∈ readings, d.Takes reading) ∧
        readings.foldlM (d.packReading s) cell = .ok (cell.filled readings) ∨
      ∃ error, d.FirstRefusal s readings error ∧
        readings.foldlM (d.packReading s) cell = .error error := by
  induction readings generalizing cell with
  | nil => exact .inl ⟨List.forall_mem_nil _, rfl⟩
  | cons reading rest ih =>
    rw [List.foldlM_cons]
    obtain ⟨htakes, hok⟩ | ⟨error, hrefuses, herror⟩ := packReading_cases d s cell reading
    · rw [hok]
      obtain ⟨hall, hrest⟩ | ⟨error, ⟨hbefore, hrefuses⟩, hrest⟩ := ih (cell.filled [reading])
      · exact .inl ⟨List.forall_mem_cons.mpr ⟨htakes, hall⟩, hrest⟩
      · exact .inr ⟨error, .intro (List.forall_mem_cons.mpr ⟨htakes, hbefore⟩) hrefuses, hrest⟩
    · rw [herror]
      exact .inr ⟨error, .intro (List.forall_mem_nil _) hrefuses, rfl⟩

theorem pack_cases (d : Device) (s : Store) (readings : List (String × Value)) :
    (∀ reading ∈ readings, d.Takes reading) ∧
        d.pack s readings = .ok (s.allocateValue (.map ((MapCell.record d).filled readings))) ∨
      ∃ error, d.FirstRefusal s readings error ∧ d.pack s readings = .error error := by
  rw [pack]
  obtain ⟨hall, hok⟩ | ⟨error, hfirst, herror⟩ :=
    foldlM_packReading_cases d s (MapCell.record d) readings
  · rw [hok]
    exact .inl ⟨hall, rfl⟩
  · rw [herror]
    exact .inr ⟨error, hfirst, rfl⟩

-- What a record shows of an attribute: the last reading of it, or its default if there is none.
def shown (readings : List (String × Value)) (pair : String × Scalar) : String × Value :=
  (pair.1, (readings.reverse.lookup pair.1).getD pair.2.defaultValue)

theorem get?_filled {pair : String × Scalar} (hmem : pair ∈ d.attributes) :
    ((MapCell.record d).filled readings).entries.get? pair.1 = some (shown readings pair).2 := by
  have hdefault : (MapCell.record d).entries.get? pair.1 = some pair.2.defaultValue :=
    OrderedMap.get?_eq_some_iff.mpr (List.mem_map.mpr ⟨pair, hmem, rfl⟩)
  rw [MapCell.entries_filled, OrderedMap.get?_foldl_insert, hdefault, shown]
  cases readings.reverse.lookup pair.1 <;> rfl

theorem unpack_filled (d : Device) (s : Store) (readings : List (String × Value)) :
    unpack (s.allocateValue (.map ((MapCell.record d).filled readings))).2
        (s.allocateValue (.map ((MapCell.record d).filled readings))).1 =
      .ok (d, d.attributes.map (shown readings)) := by
  have hobject : ((MapCell.record d).filled readings).object = .device d :=
    MapCell.object_filled _ _
  have hget (t : Store) : ∀ pair ∈ d.attributes,
      (do return (pair.1, ← ((MapCell.record d).filled readings).get t (.string pair.1)) :
        Except ValueError (String × Value)) = pure (shown readings pair) := by
    intro pair hmem
    simp only [MapCell.get, Store.mapKey, Value.text?, bind, Except.bind, get?_filled hmem]
    rfl
  rw [unpack, Store.mapCell?_allocateValue]
  simp only [hobject]
  rw [mapM_congr (hget _), List.mapM_pure]
  rfl

-- Readings are packed when all of them are taken. The record unpacks to the device and, attribute
-- by attribute, the last reading or else the default. An error is that of the first reading that is
-- not taken.
theorem packs_iff_taken (d : Device) (s : Store) (readings : List (String × Value)) :
    ((∃ packed, d.pack s readings = .ok packed) ↔ ∀ reading ∈ readings, d.Takes reading) ∧
      (∀ v t, d.pack s readings = .ok (v, t) →
        unpack t v = .ok (d, d.attributes.map (shown readings))) ∧
      ∀ error, d.pack s readings = .error error → d.FirstRefusal s readings error := by
  obtain ⟨hall, hok⟩ | ⟨error, hfirst, herror⟩ := pack_cases d s readings
  · refine ⟨iff_of_true ⟨_, hok⟩ hall, fun v t hpacked => ?_, fun error herror => ?_⟩
    · cases hok.symm.trans hpacked
      exact unpack_filled d s readings
    · cases hok.symm.trans herror
  · refine ⟨iff_of_false ?_ hfirst.not_forall, fun v t hpacked => ?_, fun other hother => ?_⟩
    · rintro ⟨packed, hpacked⟩
      cases herror.symm.trans hpacked
    · cases herror.symm.trans hpacked
    · cases herror.symm.trans hother
      exact hfirst

-- An integer for a float, read twice, and a reading of an attribute that the device does not have.
theorem packs_iff_taken_twice :
    (∀ reading ∈ [("humidity", .int 40), ("humidity", .int 41)], dht11.Takes reading) ∧
      (∃ v t, dht11.pack .empty [("humidity", .int 40), ("humidity", .int 41)] = .ok (v, t) ∧
        unpack t v =
          .ok (dht11, [("temperature", .float (Double.zero false)), ("humidity", .int 41)])) ∧
      button.pack .empty [("pressed", .bool true), ("volume", .int 1)] =
        .error (.keyNotFound "volume") ∧
      button.FirstRefusal .empty [("pressed", .bool true), ("volume", .int 1)]
        (.keyNotFound "volume") := by
  have hpacked := packs_iff_taken dht11 .empty [("humidity", .int 40), ("humidity", .int 41)]
  have hrefused := packs_iff_taken button .empty [("pressed", .bool true), ("volume", .int 1)]
  have htakes : ∀ reading ∈ [("humidity", .int 40), ("humidity", .int 41)],
      dht11.Takes reading := by
    simp only [List.forall_mem_cons, List.not_mem_nil, false_implies, implies_true, and_true]
    exact ⟨⟨.float, by decide, .inr ⟨rfl, rfl⟩⟩, ⟨.float, by decide, .inr ⟨rfl, rfl⟩⟩⟩
  obtain ⟨⟨v, t⟩, hok⟩ := hpacked.1.mpr htakes
  have herror : button.pack .empty [("pressed", .bool true), ("volume", .int 1)] =
      .error (.keyNotFound "volume") := by
    have hpressed : Store.empty.compatible Scalar.bool.defaultValue (.bool true) = true :=
      Store.compatible_defaultValue_iff.mpr (.inl rfl)
    have hattribute : button.attribute? "pressed" = some .bool := by decide
    have hunknown : button.attribute? "volume" = none := by decide
    simp only [pack, packReading, List.foldlM_cons, hattribute, hpressed, hunknown]
    rfl
  exact ⟨htakes, ⟨v, t, hok, hpacked.2.1 v t hok⟩, herror, hrefused.2.2 _ herror⟩

end Device

end Conductor
