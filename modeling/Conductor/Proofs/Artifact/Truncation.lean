import Conductor.Proofs.Archive.Delimiting
import Conductor.Proofs.Artifact.Accepted
import Conductor.Proofs.Artifact.Measured
import Conductor.Proofs.Instruction.Cut

namespace Conductor

open Archive

section Records

variable {α : Type} {value : Reader α}

theorem Trigger.selfDelimiting_read : SelfDelimiting Trigger.read :=
  .bind (.seq .text) fun _ => .bind .text fun _ => .bind (.number 2) fun _ => .pure _

theorem DeviceBinding.selfDelimiting_read (h : SelfDelimiting value) :
    SelfDelimiting (DeviceBinding.read value) :=
  .bind .text fun _ => .bind .tag fun _ => .bind .text fun _ =>
    .bind (.seq (.bind .text fun _ => .bind .text fun _ => .pure _)) fun _ => .bind h fun _ =>
    .bind .bool fun _ => .bind (.choice _) fun _ => .bind (.choice _) fun _ => .bind .bool fun _ =>
    .bind (.number 4) fun _ => .bind .bool fun _ => .bind .bool fun _ => .bind (.choice _) fun _ =>
    .pure _

theorem TaskRecord.selfDelimiting_read (h : SelfDelimiting value) :
    SelfDelimiting (TaskRecord.read value) :=
  have hdevices := SelfDelimiting.seq (DeviceBinding.selfDelimiting_read h)
  .bind .text fun _ => .bind hdevices fun _ => .bind (.number 4) fun _ => .bind hdevices fun _ =>
    .bind hdevices fun _ => .bind .text fun _ => .bind (.seq Trigger.selfDelimiting_read) fun _ =>
    .pure _

theorem SymbolTable.selfDelimiting_read : SelfDelimiting SymbolTable.read :=
  .bind (.seq (.bind (.number 2) fun _ => .bind .text fun _ => .bind (.seq .text) fun _ => .pure _))
    fun _ => .pure _

end Records

namespace Program

variable {s : Store} {p : Program Value} {q : Program Archived} {bytes : Bytes}

-- The bytes of a program in front of its code.
def front (s : Store) (p : Program Value) : Bytes :=
  leBytes 4 p.metadataEnd ++ (SymbolTable.emission p.functions.byId).bytes ++
    (Emission.counted (TaskRecord.emission s.emission) p.tasks).bytes ++
    (Emission.counted s.emission p.literals).bytes

theorem sections_eq (s : Store) (p : Program Value) :
    p.sections s = p.front s ++ (p.code.map Prod.snd).flatMap Instruction.encode := rfl

-- Reads what stands in front of the code, without a look at where the symbol table ends.
def frontReader :
    Archive.Reader (Nat × SymbolTable × List (TaskRecord Archived) × List Archived) := do
  let finish ← Archive.Reader.number 4
  let functions ← SymbolTable.read
  let tasks ← Archive.Reader.times (TaskRecord.read Archived.decode) (← Archive.Reader.number 2)
  let literals ← Archive.Reader.times Archived.decode (← Archive.Reader.number 2)
  return (finish, functions, tasks, literals)

theorem selfDelimiting_frontReader : SelfDelimiting frontReader :=
  have htask := TaskRecord.selfDelimiting_read Archived.selfDelimiting_decode
  .bind (.number 4) fun _ => .bind SymbolTable.selfDelimiting_read fun _ =>
    .bind (.number 2) fun count => .bind (htask.times count) fun _ =>
    .bind (.number 2) fun count => .bind (Archived.selfDelimiting_decode.times count) fun _ =>
    .pure _

theorem exists_frontReader_of_read (h : read bytes 0 = .ok q) :
    ∃ result code, frontReader bytes = .ok (result, code) := by
  obtain ⟨_, hreader⟩ := exists_reader_of_read h
  obtain ⟨finish, table, afterTable, taskCount, tasks, afterTasks, literalCount, literals, code,
    hword, htable, _, htaskCount, htasks, hliteralCount, hliterals, _⟩ :=
    sections_of_reader_eq_ok hreader
  rw [List.drop_zero] at hword
  refine ⟨(finish, q.functions, q.tasks, q.literals), code, ?_⟩
  rw [frontReader, read_bind (eq_ok_of_number hword), read_bind (eq_ok_of_archived htable),
    read_bind (eq_ok_of_number htaskCount), read_bind (eq_ok_of_archived htasks),
    read_bind (eq_ok_of_number hliteralCount), read_bind (eq_ok_of_archived hliterals)]
  rfl

-- What stands in front of the code reads back, and then it is up to the code.
structure Fronted (q : Program Archived) (front : Bytes) : Prop where
  reads : ∃ result, Reads frontReader front result
  read_append : ∀ code, read (front ++ code) 0 =
    (instructions code).map fun result => { q with code := result.1 }

theorem exists_fronted_of_write (h : p.write s = .ok bytes)
    (hlength : bytes.length < byteCapacity 8) :
    ∃ q : Program Archived, q.Fronted (p.front s) ∧ bytes = p.sections s := by
  obtain ⟨functions, tasks, literals, rfl, hend, htasks, hliterals, htable, hheader, hpool⟩ :=
    exists_carries_of_write h hlength
  refine ⟨{ functions, tasks, literals }, ⟨⟨(p.metadataEnd, functions, tasks, literals), ?_⟩,
    fun code => ?_⟩, rfl⟩
  · rw [front, Emission.counted_eq, Emission.counted_eq]
    simp only [List.append_assoc]
    exact (Reads.number hend).bind <| htable.reads.bind <| (Reads.number htasks).bind <|
      hheader.reads.bind <| (Reads.number hliterals).bind <| hpool.reads.last (.pure _)
  · rw [front, Emission.counted_eq, Emission.counted_eq]
    exact read_append code hend htasks hliterals htable hheader hpool

namespace Fronted

variable {front : Bytes} {n : Nat}

-- The reader would have to find a shorter front, but no front goes on as another one.
theorem exists_error_of_lt (h : q.Fronted front) (code : Bytes) (hn : n < front.length) :
    ∃ error, read ((front ++ code).take n) 0 = .error error := by
  cases hread : read ((front ++ code).take n) 0 with
  | error error => exact ⟨error, rfl⟩
  | ok r =>
    obtain ⟨result, rest, hfront⟩ := exists_frontReader_of_read hread
    obtain ⟨shorter, hbytes, hshorter⟩ := selfDelimiting_frontReader _ _ _ hfront
    have hwhole : front ++ code = shorter ++ (rest ++ (front ++ code).drop n) := by
      rw [← List.append_assoc, ← hbytes, List.take_append_drop]
    obtain ⟨_, hreads⟩ := h.reads
    obtain ⟨_, rfl, _⟩ := hreads.unique hshorter hwhole
    have hlength := congrArg List.length hbytes
    simp only [List.length_take, List.length_append] at hlength
    omega

theorem read_take (h : q.Fronted front) (code : Bytes) (hn : front.length ≤ n) :
    read ((front ++ code).take n) 0 =
      (instructions (code.take (n - front.length))).map fun result =>
        { q with code := result.1 } := by
  rw [List.take_append, List.take_of_length_le hn, h.read_append]

theorem read_take_cases (h : q.Fronted front) (code : List Instruction) (hn : front.length ≤ n)
    (hlt : n - front.length < Instruction.totalLength code) :
    Boundary (place 0 code) (n - front.length) ∧
        read ((front ++ code.flatMap Instruction.encode).take n) 0 =
          .ok { q with code := endingBy (n - front.length) (place 0 code) } ∨
      ¬Boundary (place 0 code) (n - front.length) ∧
        ∃ placed ∈ place 0 code, placed.1 < n - front.length ∧
          n - front.length < placed.1 + placed.2.length ∧
          read ((front ++ code.flatMap Instruction.encode).take n) 0 =
            .error (.code (.truncated placed.2.opcode placed.1)) := by
  rw [h.read_take _ hn, instructions]
  obtain ⟨hboundary, hdecoded⟩ | ⟨hinside, placed, hmem, hbefore, hafter, hdecoded⟩ :=
    Decoder.instructions_take hlt
  · rw [hdecoded]
    exact .inl ⟨hboundary, rfl⟩
  · rw [hdecoded]
    exact .inr ⟨hinside, placed, hmem, hbefore, hafter, rfl⟩

end Fronted

-- An artifact that was cut off in front of its code does not read. Cut where an instruction begins
-- it reads as the program up to there, and cut inside of an instruction it does not, and says
-- which.
theorem read_take_of_write (h : p.write s = .ok bytes) (hlength : bytes.length < byteCapacity 8) :
    ∃ start q, start ≤ bytes.length ∧
      bytes.drop start = (p.code.map Prod.snd).flatMap Instruction.encode ∧ read bytes 0 = .ok q ∧
      ∀ n < bytes.length,
        (n < start → ∃ error, read (bytes.take n) 0 = .error error) ∧
        (start ≤ n →
          ((∃ r, read (bytes.take n) 0 = .ok r) ↔ Boundary q.code (n - start)) ∧
          (Boundary q.code (n - start) →
            read (bytes.take n) 0 = .ok { q with code := endingBy (n - start) q.code }) ∧
          (¬Boundary q.code (n - start) →
            ∃ placed ∈ q.code, placed.1 < n - start ∧ n - start < placed.1 + placed.2.length ∧
              read (bytes.take n) 0 = .error (.code (.truncated placed.2.opcode placed.1)))) := by
  obtain ⟨q, hfront, rfl⟩ := exists_fronted_of_write h hlength
  rw [sections_eq]
  generalize p.front s = front at hfront
  generalize p.code.map Prod.snd = code
  refine ⟨front.length, { q with code := place 0 code }, by simp, List.drop_left, ?_, fun n hn =>
    ⟨hfront.exists_error_of_lt _, fun hle => ?_⟩⟩
  · rw [hfront.read_append, instructions, Decoder.instructions_flatMap_encode]
    rfl
  · rw [List.length_append, Instruction.length_flatMap_encode] at hn
    obtain ⟨hboundary, hread⟩ | ⟨hinside, placed, hmem, hbefore, hafter, hread⟩ :=
      hfront.read_take_cases code hle (by omega)
    · exact ⟨⟨fun _ => hboundary, fun _ => ⟨_, hread⟩⟩, fun _ => hread,
        fun hinside => absurd hboundary hinside⟩
    · refine ⟨⟨fun hreads => ?_, fun hboundary => absurd hboundary hinside⟩,
        fun hboundary => absurd hboundary hinside, fun _ => ⟨placed, hmem, hbefore, hafter, hread⟩⟩
      obtain ⟨r, hr⟩ := hreads
      rw [hread] at hr
      cases hr

-- A program with a function, a literal and two instructions, and its artifact.
def pushProgram : Program Value where
  functions := .ofList [("main", ⟨3, []⟩)]
  literals := [.int 7]
  code := [(0, .plain .push), (0, .plain .ret)]

def pushArtifact : Bytes :=
  [34, 0, 0, 0, 1, 0, 0, 0, 0, 0, 0, 0, 3, 0, 4, 0, 0, 0, 0, 0, 0, 0, 109, 97, 105, 110,
    0, 0, 0, 0, 0, 0, 0, 0, 0, 0, 1, 0, 2, 0, 0, 0, 7, 0, 0, 0, 0, 0, 0, 0, 2, 0, 0, 26]

theorem read_take_of_write_push :
    pushProgram.write .empty = .ok pushArtifact ∧ pushArtifact.length < byteCapacity 8 ∧
      ∃ start q, start ≤ 54 ∧ pushArtifact.drop start = [2, 0, 0, 26] ∧
        read pushArtifact 0 = .ok q ∧
        ∀ n < 54, (n < start → ∃ error, read (pushArtifact.take n) 0 = .error error) ∧
          (start ≤ n →
            ((∃ r, read (pushArtifact.take n) 0 = .ok r) ↔ Boundary q.code (n - start))) := by
  have hwrite : pushProgram.write .empty = .ok pushArtifact := by decide +kernel
  have hlength : pushArtifact.length < byteCapacity 8 := by decide
  obtain ⟨start, q, hstart, hcode, hread, hcut⟩ := read_take_of_write hwrite hlength
  exact ⟨hwrite, hlength, start, q, hstart, hcode, hread, fun n hn =>
    ⟨(hcut n hn).1, fun hle => ((hcut n hn).2 hle).1⟩⟩

end Program

end Conductor
