import Conductor.Command
import Conductor.Proofs.Store.Display

namespace Conductor.Listing

open Text

variable {s : Store} {p : Program Value} {placed : Placed} {v : Value} {text : String} {c : Char}

section Rows

-- The rows of printed lines. Each line is ended by a line feed and may have more of them inside.
def rows (lines : List String) : Nat := (lines.flatMap fun line => line.toList ++ ['\n']).count '\n'

theorem rows_cons (line : String) (lines : List String) :
    rows (line :: lines) = line.toList.count '\n' + 1 + rows lines := by
  rw [rows, List.flatMap_cons, List.count_append, List.count_append, List.count_singleton_self,
    rows]

theorem rows_eq (lines : List String) :
    rows lines = lines.length + (lines.map fun line => line.toList.count '\n').sum := by
  induction lines with
  | nil => rfl
  | cons line lines ih =>
    rw [rows_cons, ih, List.length_cons, List.map_cons, List.sum_cons]
    omega

theorem rows_eq_length_iff (lines : List String) :
    rows lines = lines.length ↔ ∀ line ∈ lines, '\n' ∉ line.toList := by
  rw [rows_eq, Nat.add_eq_left, List.sum_eq_zero_iff, List.forall_mem_map]
  simp only [List.count_eq_zero]

end Rows

section Literals

-- A text as far as a literal is shown.
def shorten (text : String) : String :=
  if literalLimit < text.length then String.ofList (text.toList.take literalLimit) ++ "..."
  else text

-- The text of a literal before it is cut.
def whole (s : Store) (v : Value) : String := (v.asString?.map quoted).getD (s.display v)

theorem literal_eq (s : Store) (v : Value) : literal s v = shorten (whole s v) := by
  cases v <;> rfl

theorem length_shorten_le (text : String) : (shorten text).length ≤ literalLimit + 3 := by
  rw [shorten]
  split
  · rw [String.length_append, String.length_ofList]
    exact Nat.add_le_add_right (List.length_take_le _ _) _
  · exact Nat.le_add_right_of_le (Nat.not_lt.mp ‹_›)

-- The points that stand for the rest are visible.
theorem mem_shorten_iff (hc : isVisible c = false) :
    c ∈ (shorten text).toList ↔ c ∈ text.toList.take literalLimit := by
  rw [shorten]
  split
  · have hpoints : c ∉ "...".toList := Visible.notMem (by decide) hc
    rw [String.toList_append, List.mem_append, String.toList_ofList, or_iff_left hpoints]
  · rw [List.take_of_length_le (Nat.not_lt.mp ‹_›)]

theorem visible_whole (hv : v.isContainer = false) : Visible (whole s v) := by
  cases v with
  | container a => cases hv
  | string text => exact visible_quoted text
  | _ => exact Store.visible_displayWithin rfl rfl

-- Only a container shows characters that are not visible.
theorem mem_literal_iff (hc : isVisible c = false) :
    c ∈ (literal s v).toList ↔
      v.isContainer = true ∧ c ∈ (s.display v).toList.take literalLimit := by
  rw [literal_eq, mem_shorten_iff hc]
  cases hv : v.isContainer with
  | false =>
    have hnot : c ∉ (whole s v).toList.take literalLimit :=
      fun h => (visible_whole hv).notMem hc (List.mem_of_mem_take h)
    simpa using hnot
  | true =>
    cases v with
    | container a => simp [whole, Value.asString?]
    | _ => cases hv

-- A line ends in what is shown of the literal, which only happens in a container.
def Breaks (s : Store) (v : Value) : Prop :=
  v.isContainer = true ∧ '\n' ∈ (s.display v).toList.take literalLimit

instance (s : Store) (v : Value) : Decidable (Breaks s v) := inferInstanceAs (Decidable (_ ∧ _))

theorem breaks_iff : Breaks s v ↔ '\n' ∈ (literal s v).toList :=
  (mem_literal_iff isVisible_lineFeed).symm

end Literals

section Lines

theorem visible_name (t : Tag) : Visible t.name := by
  cases t with
  | device d => cases d <;> decide
  | _ => decide

-- The line of a literal in the pool.
def literalLine (s : Store) (i : Nat) (v : Value) : String :=
  s!"[{i}] {(s.tag v).name}: {literal s v}"

theorem mem_literalLine_iff {i : Nat} (hc : isVisible c = false) :
    c ∈ (literalLine s i v).toList ↔ c ∈ (literal s v).toList := by
  have hhead : Visible ("[" ++ toString i ++ "] " ++ (s.tag v).name ++ ": ") :=
    ((((by decide : Visible "[").append (visible_nat i)).append (by decide)).append
      (visible_name _)).append (by decide)
  exact hhead.mem_append_iff hc

theorem visible_offset (n : Nat) : Visible (offset n) := by
  have hpadding (k : Nat) : Visible ("".pushn ' ' k) := by
    induction k with
    | zero => decide
    | succ k ih =>
      have hpush : "".pushn ' ' (k + 1) = ("".pushn ' ' k).push ' ' := rfl
      rw [hpush, String.push_eq_append]
      exact ih.append (by decide)
  exact (hpadding _).append (visible_nat n)

theorem visible_instruction (i : Instruction) : Visible i.text := by
  refine visible_intercalate (by decide) fun part hpart => ?_
  obtain rfl | hoperand := List.mem_cons.mp hpart
  · cases i.opcode <;> decide
  · obtain ⟨n, _, rfl⟩ := List.mem_map.mp hoperand
    exact visible_int n

-- The literal that an instruction pushes, if the program has it.
def pushed (p : Program Value) (i : Instruction) : Option Value :=
  p.literals[(i.operands.headD 0).toNat]?

theorem note_push {i : Instruction} (hpush : i.opcode = .push) :
    note? s p i = some (((pushed p i).map (literal s)).getD "<missing literal>") := by
  rw [pushed]
  simp only [note?, hpush]
  cases p.literals[(i.operands.headD 0).toNat]? <;> rfl

theorem mem_push_iff (hpush : placed.2.opcode = .push) (hc : isVisible c = false) :
    c ∈ (instruction s p placed).toList ↔
      ∃ v, pushed p placed.2 = some v ∧ c ∈ (literal s v).toList := by
  have hhead : Visible (offset placed.1 ++ ": " ++ placed.2.text ++ "  ; ") :=
    (((visible_offset _).append (by decide)).append (visible_instruction _)).append (by decide)
  have hline : instruction s p placed = offset placed.1 ++ ": " ++ placed.2.text ++ "  ; " ++
      ((pushed p placed.2).map (literal s)).getD "<missing literal>" := by
    simp only [instruction, note_push hpush]
    rfl
  rw [hline, hhead.mem_append_iff hc]
  cases pushed p placed.2 with
  | none =>
    have hmissing : c ∉ "<missing literal>".toList := Visible.notMem (by decide) hc
    exact ⟨fun h => absurd h hmissing, fun ⟨_, h, _⟩ => nomatch h⟩
  | some v => exact ⟨fun h => ⟨v, rfl, h⟩, fun ⟨_, heq, h⟩ => Option.some.inj heq ▸ h⟩

end Lines

section Dump

-- What comes before the literals.
def heading (title : String) (p : Program Value) : List String :=
  [s!"== {title} ==", "-- functions --"] ++ p.functions.byId.map function ++
    ["-- tasks --"] ++ p.tasks.flatMap task

theorem lines_eq (s : Store) (title : String) (p : Program Value) :
    lines s title p = heading title p ++ ["-- literals --"] ++ p.literals.mapIdx (literalLine s) ++
      ["-- code --"] ++ p.code.map (instruction s p) :=
  rfl

-- How a listing shows literals: what is not visible in one is in a text or a key of a container,
-- and a literal takes up another row only by a line feed there.
structure Listed (s : Store) (p : Program Value) : Prop where
  short : ∀ v, (literal s v).length ≤ 63
  hidden : ∀ v c, isVisible c = false →
    (c ∈ (literal s v).toList ↔ v.isContainer = true ∧ c ∈ (s.display v).toList.take literalLimit)
  texts : ∀ v c, isVisible c = false →
    (c ∈ (s.display v).toList ↔ ∃ text, s.Mentions v text ∧ c ∈ text.toList)
  literals : rows (p.literals.mapIdx (literalLine s)) = p.literals.length ↔
    ∀ v ∈ p.literals, ¬Breaks s v
  pushes : ∀ placed ∈ p.code, placed.2.opcode = .push →
    (rows [instruction s p placed] = 1 ↔ ∀ v, pushed p placed.2 = some v → ¬Breaks s v)

theorem rows_literals_iff (s : Store) (vs : List Value) :
    rows (vs.mapIdx (literalLine s)) = vs.length ↔ ∀ v ∈ vs, ¬Breaks s v := by
  have hline (i : Nat) (v : Value) : '\n' ∉ (literalLine s i v).toList ↔ ¬Breaks s v := by
    rw [mem_literalLine_iff isVisible_lineFeed, breaks_iff]
  have hrows := rows_eq_length_iff (vs.mapIdx (literalLine s))
  rw [List.length_mapIdx] at hrows
  rw [hrows]
  constructor
  · intro h v hv
    obtain ⟨i, hi, rfl⟩ := List.mem_iff_getElem.mp hv
    exact (hline i _).mp (h _ (List.mem_mapIdx.mpr ⟨i, hi, rfl⟩))
  · intro h line hmem
    obtain ⟨i, hi, rfl⟩ := List.mem_mapIdx.mp hmem
    exact (hline i _).mpr (h _ (List.getElem_mem hi))

theorem rows_push_iff (hpush : placed.2.opcode = .push) :
    rows [instruction s p placed] = 1 ↔ ∀ v, pushed p placed.2 = some v → ¬Breaks s v := by
  rw [← List.length_singleton (a := instruction s p placed), rows_eq_length_iff,
    List.forall_mem_singleton, mem_push_iff hpush isVisible_lineFeed, not_exists]
  simp only [not_and, breaks_iff]

theorem listed (s : Store) (p : Program Value) : Listed s p where
  short v := literal_eq s v ▸ length_shorten_le _
  hidden _ _ := mem_literal_iff
  texts _ _ := Store.mem_display_iff
  literals := rows_literals_iff s p.literals
  pushes _ _ := rows_push_iff

-- The dump of an artifact that can be read lists the literals that are thawed from it.
theorem listed_of_read {files : Files} {file : String} {bytes : Bytes} {stored : Program Archived}
    (hfile : files.read file = .ok bytes) (hread : Program.read bytes 0 = .ok stored) :
    ∃ p s, Program.thaw .empty stored = (p, s) ∧ Listed s p ∧
      Command.run files (.dump file) = {
        output := heading file p ++ ["-- literals --"] ++ p.literals.mapIdx (literalLine s) ++
          ["-- code --"] ++ p.code.map (instruction s p) } := by
  refine ⟨_, _, rfl, listed _ _, ?_⟩
  rw [← lines_eq]
  simp only [Command.run, hfile, hread]
  rfl

theorem exists_thawed {bytes : Bytes} {P : Program Value → Store → Prop} [∀ p s, Decidable (P p s)]
    (h : (Program.read bytes 0).toOption.any (fun stored =>
      decide (P (stored.thaw .empty).1 (stored.thaw .empty).2)) = true) :
    ∃ stored p s, Program.read bytes 0 = .ok stored ∧ stored.thaw .empty = (p, s) ∧ P p s := by
  cases hread : Program.read bytes 0 with
  | error error =>
    rw [hread] at h
    cases h
  | ok stored =>
    rw [hread] at h
    exact ⟨stored, _, _, rfl, rfl, of_decide_eq_true h⟩

-- The text "a\nb" and a list with a text of 59 letters and a line feed behind them, each pushed.
def cutArtifact : Bytes :=
  [12, 0, 0, 0, 0, 0, 0, 0, 0, 0, 0, 0, 0, 0] ++
    [2, 0, 4, 0, 0, 0, 3, 0, 0, 0, 0, 0, 0, 0, 97, 10, 98] ++
    [5, 0, 0, 0, 4, 0, 0, 0, 0, 0, 0, 0, 0, 0, 0, 0, 1, 0, 0, 0, 0, 0, 0, 0] ++
    [4, 0, 0, 0, 60, 0, 0, 0, 0, 0, 0, 0] ++ List.replicate 59 120 ++ [10] ++
    [2, 0, 0, 2, 1, 0]

-- The line feeds are quoted away and cut off.
theorem listed_of_read_cut :
    ∃ stored p s, Program.read cutArtifact 0 = .ok stored ∧ stored.thaw .empty = (p, s) ∧
      p.literals.length = 2 ∧ (∀ v ∈ p.literals, '\n' ∈ (s.display v).toList) ∧
      rows (p.literals.mapIdx (literalLine s)) = 2 ∧
      ∀ placed ∈ p.code, placed.2.opcode = .push ∧ rows [instruction s p placed] = 1 := by
  have hfacts : ∃ stored p s, Program.read cutArtifact 0 = .ok stored ∧
      stored.thaw .empty = (p, s) ∧ p.literals.length = 2 ∧
      (∀ v ∈ p.literals, '\n' ∈ (s.display v).toList) ∧ (∀ v ∈ p.literals, ¬Breaks s v) ∧
      ∀ placed ∈ p.code, placed.2.opcode = .push :=
    exists_thawed (by decide +kernel)
  obtain ⟨stored, p, s, hread, hthaw, hlength, hfeeds, hwhole, hpushes⟩ := hfacts
  let files : Files := { read := fun _ => .ok cutArtifact, create := fun _ => .ok () }
  have hfile : files.read "cut" = .ok cutArtifact := rfl
  obtain ⟨_, _, hthawed, hlisted, _⟩ := listed_of_read hfile hread
  cases hthaw.symm.trans hthawed
  refine ⟨stored, p, s, hread, hthaw, hlength, hfeeds, ?_,
    fun placed hmem => ⟨hpushes placed hmem, ?_⟩⟩
  · exact (hlisted.literals.mpr hwhole).trans hlength
  · exact (hlisted.pushes placed hmem (hpushes placed hmem)).mpr fun v hv =>
      hwhole v (List.mem_of_getElem? hv)

-- A list with the text "a\nb", pushed.
def brokenArtifact : Bytes :=
  [12, 0, 0, 0, 0, 0, 0, 0, 0, 0, 0, 0, 0, 0] ++
    [1, 0, 5, 0, 0, 0, 4, 0, 0, 0, 0, 0, 0, 0, 0, 0, 0, 0, 1, 0, 0, 0, 0, 0, 0, 0] ++
    [4, 0, 0, 0, 3, 0, 0, 0, 0, 0, 0, 0, 97, 10, 98] ++ [2, 0, 0]

-- Its line feed goes into the listing as it is.
theorem exists_row_broken :
    ∃ stored p s, Program.read brokenArtifact 0 = .ok stored ∧ stored.thaw .empty = (p, s) ∧
      p.literals.map (literal s) = ["[a\nb]"] ∧
      rows (p.literals.mapIdx (literalLine s)) = 2 ∧
      p.code.map (fun placed => (placed.2.opcode, rows [instruction s p placed])) = [(.push, 2)] :=
  exists_thawed (by decide +kernel)

end Dump

end Conductor.Listing
