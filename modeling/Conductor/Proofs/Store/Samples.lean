import Conductor.Proofs.OrderedMap
import Conductor.Proofs.Store.Symmetry
import Conductor.Proofs.Store.Writing

namespace Conductor

-- The scalar type of a value that can be a key.
def Value.kind? : Value → Option Scalar
  | bool _ => some .bool
  | int _ => some .int
  | float _ => some .float
  | string _ => some .string
  | void | container _ => none

namespace Store

variable {s : Store}

-- A key is compatible with a text when it is a text itself.
theorem compatible_key_text_iff {k : Value} {kind : Scalar} (hk : k.kind? = some kind)
    (text : String) : s.compatible k (.string text) = true ↔ kind = .string := by
  cases k <;> cases hk <;> simp [compatible, compatibleWithin, tag, Tag.compatible, Tag.isNumeric]

end Store

namespace MapCell

variable {s : Store} {cell after : MapCell} {object element : Tag} {kind : Scalar} {k e v : Value}

-- The declared types of a map whose keys are of a scalar type.
structure Declares (cell : MapCell) (object : Tag) (kind : Scalar) (element : Tag) : Prop where
  object_eq : cell.object = object
  key_eq : cell.key = kind.tag
  element_eq : cell.element = element

-- An entry that a write under a key of the type of the sample's key, of a value of the type of the
-- sample, leaves behind.
def Fits (s : Store) (kind : Scalar) (e : Value) (entry : String × Value) : Prop :=
  (∃ k : Value, k.kind? = some kind ∧ k.text? = some entry.1) ∧ s.compatible e entry.2 = true

-- A map without a sample that was filled with such entries.
structure Described (s : Store) (cell : MapCell) (object : Tag) (kind : Scalar) (element : Tag)
    (e : Value) : Prop where
  declares : cell.Declares object kind element
  sample_eq : cell.sample = none
  nonempty : cell.entries.toList ≠ []
  fits : ∀ entry ∈ cell.entries.toList, Fits s kind e entry

-- Any write under such a key of such a value to a map with no other entries makes such a map.
theorem described_emplace (hdeclares : cell.Declares object kind element)
    (hsample : cell.sample = none) (hfits : ∀ entry ∈ cell.entries.toList, Fits s kind e entry)
    (hk : k.kind? = some kind) (hv : s.compatible e v = true)
    (h : cell.emplace s k v = .ok after) : Described s after object kind element e := by
  obtain ⟨text, htext, rfl⟩ := emplace_eq_ok_iff.mp h
  have hkey : k.text? = some text := by
    cases k <;> cases hk <;> exact congrArg some (Except.ok.inj htext)
  refine ⟨⟨hdeclares.1, hdeclares.2, hdeclares.3⟩, hsample, fun hempty => ?_,
    fun entry hentry => ?_⟩
  · have hmem := OrderedMap.mem_keys_insert cell.entries text v
    rw [OrderedMap.keys, hempty] at hmem
    cases hmem
  · obtain rfl | hold := OrderedMap.mem_of_mem_insertEntry hentry
    · exact ⟨⟨k, hk, hkey⟩, hv⟩
    · exact hfits entry hold

end MapCell

namespace Store

variable {s : Store} {a b : Address} {sampled plain : MapCell} {object element : Tag}
  {kind : Scalar} {k e : Value}

-- The sample's key is compared with the text of the first key.
theorem compatible_sampled_plain_iff (ha : s.fetch a = .map sampled) (hb : s.fetch b = .map plain)
    (hdeclares : sampled.Declares object kind element) (hsample : sampled.sample = some (k, e))
    (hk : k.kind? = some kind) (hplain : plain.Described s object kind element e) :
    s.compatible (.container a) (.container b) = true ↔ kind = .string := by
  obtain ⟨⟨text, v⟩, rest, hentries⟩ := List.exists_cons_of_ne_nil hplain.nonempty
  have hleft : (Container.map sampled).representative = [k, e] := by
    simp [Container.representative, Container.sample, hsample]
  have hright : (Container.map plain).representative = [.string text, v] := by
    simp [Container.representative, Container.sample, hplain.sample_eq, hentries]
  have hvalue : s.compatible e v = true := (hplain.fits (text, v) (hentries ▸ List.mem_cons_self)).2
  have hagree : s.Agree (.container a) (.container b) := by
    have hother := hplain.declares
    simp [Agree, ha, hb, Container.object, Container.key, Container.element, hdeclares.object_eq,
      hdeclares.key_eq, hdeclares.element_eq, hother.object_eq, hother.key_eq, hother.element_eq,
      Tag.compatible_self]
  rw [compatible_container_iff, ha, hb, hleft, hright]
  simp [hagree, hvalue, compatible_key_text_iff hk]

-- A map with a sample is compatible with the maps that it describes when its keys are texts, and
-- with none of them when they are of another type.
theorem compatible_sampled_iff (ha : s.fetch a = .map sampled) (hb : s.fetch b = .map plain)
    (hdeclares : sampled.Declares object kind element) (hsample : sampled.sample = some (k, e))
    (hk : k.kind? = some kind) (hplain : plain.Described s object kind element e) :
    (s.compatible (.container a) (.container b) = true ↔ kind = .string) ∧
      (s.compatible (.container b) (.container a) = true ↔ kind = .string) := by
  have hleft := compatible_sampled_plain_iff ha hb hdeclares hsample hk hplain
  exact ⟨hleft, by rw [compatible_comm, hleft]⟩

-- A map with a sample, and a map with one entry that it describes, with keys of a type.
def sampledMap (kind : Scalar) : MapCell :=
  { MapCell.new .map kind.tag .int with sample := some (kind.defaultValue, .int 0) }

def filledMap (kind : Scalar) : MapCell :=
  { MapCell.new .map kind.tag .int with
    entries := OrderedMap.empty.insert "1" (.int 5), modified := true }

def sampleStore (kind : Scalar) : Store :=
  ⟨#[some (.map (sampledMap kind)), some (.map (filledMap kind))]⟩

theorem described_filledMap {k : Value} (hk : k.kind? = some kind) (htext : k.text? = some "1") :
    (filledMap kind).Described (sampleStore kind) .map kind .int (.int 0) := by
  have hdeclares : (MapCell.new .map kind.tag .int).Declares .map kind .int := ⟨rfl, rfl, rfl⟩
  refine MapCell.described_emplace (v := .int 5) hdeclares rfl nofun hk ?_ ?_
  · simp [compatible, compatibleWithin, tag, Tag.compatible]
  · exact MapCell.emplace_eq_ok_iff.mpr ⟨"1", by simp [mapKey, htext], rfl⟩

theorem compatible_sampled_iff_texts :
    (sampleStore .string).compatible (.container ⟨0⟩) (.container ⟨1⟩) = true ∧
      (sampleStore .string).compatible (.container ⟨1⟩) (.container ⟨0⟩) = true := by
  have hplain : (filledMap .string).Described (sampleStore .string) .map .string .int (.int 0) :=
    described_filledMap (k := .string "1") rfl rfl
  have h := compatible_sampled_iff (a := ⟨0⟩) (b := ⟨1⟩) rfl rfl
    (⟨rfl, rfl, rfl⟩ : (sampledMap .string).Declares .map .string .int) rfl rfl hplain
  exact ⟨h.1.mpr rfl, h.2.mpr rfl⟩

-- With integers for keys the sample and the stored text of a key are at odds.
theorem not_compatible_sampled_integers :
    (filledMap .int).Described (sampleStore .int) .map .int .int (.int 0) ∧
      (sampleStore .int).compatible (.container ⟨0⟩) (.container ⟨1⟩) = false ∧
      (sampleStore .int).compatible (.container ⟨1⟩) (.container ⟨0⟩) = false := by
  have hplain : (filledMap .int).Described (sampleStore .int) .map .int .int (.int 0) :=
    described_filledMap (k := .int 1) rfl rfl
  have h := compatible_sampled_plain_iff (a := ⟨0⟩) (b := ⟨1⟩) rfl rfl
    (⟨rfl, rfl, rfl⟩ : (sampledMap .int).Declares .map .int .int) rfl rfl hplain
  have hfalse : (sampleStore .int).compatible (.container ⟨0⟩) (.container ⟨1⟩) = false :=
    Bool.eq_false_iff.mpr fun htrue => nomatch h.mp htrue
  exact ⟨hplain, hfalse, by rw [compatible_comm, hfalse]⟩

end Store

end Conductor
