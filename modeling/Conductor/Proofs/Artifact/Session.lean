import Conductor.Proofs.Artifact.Steps

namespace Conductor

namespace Serializer

open Archive

-- A call with its arguments. The values belong to the store as it was then.
inductive Call where
  | metadata (table : SymbolTable)
  | header (s : Store) (tasks : List (TaskRecord Value))
  | literals (s : Store) (values : List Value)
  | literalMap (s : Store) (m : LiteralMap)
  | instruction (i : Instruction)

namespace Call

def step : Call → Step Unit
  | metadata table => do let _ ← writeMetadata table
  | header s tasks => writeHeader s tasks
  | literals s values => writeLiterals s values
  | literalMap s m => writeLiteralMap s m
  | instruction i => writeInstruction i

-- The section that the call belongs to.
def phase : Call → Phase
  | metadata _ => .metadata
  | header _ _ => .header
  | literals _ _ => .literals
  | literalMap _ _ => .literals
  | instruction _ => .code

-- The section after it. There may be any number of instructions.
def next : Call → Phase
  | metadata _ => .header
  | header _ _ => .literals
  | literals _ _ => .code
  | literalMap _ _ => .code
  | instruction _ => .code

-- What the call puts on the stream when it succeeds. The symbol table stands behind a word that
-- holds the position of its end.
def emission : Call → Emission
  | metadata table =>
    .number 4 (4 + (SymbolTable.emission table.byId).bytes.length) ++
      SymbolTable.emission table.byId
  | header s tasks => .counted (TaskRecord.emission s.emission) tasks
  | literals s values => .counted s.emission values
  | literalMap s m =>
    .counted s.emission ((m.toList.mergeSort fun a b => decide (a.2 ≤ b.2)).map Prod.fst)
  | instruction i => { bytes := i.encode }

end Call

abbrev Log := List (Call × Except EncodeError Unit)

-- Makes the calls one by one, whatever becomes of them.
def perform (session : Serializer) : List Call → Log × Serializer
  | [] => ([], session)
  | call :: rest =>
    let (result, after) := call.step.run session
    let (log, last) := perform after rest
    ((call, result) :: log, last)

def succeeded (log : Log) : List Call :=
  log.filterMap fun entry =>
    match entry.2 with
    | .ok () => some entry.1
    | .error _ => none

variable {session after : Serializer} {call : Call} {error : EncodeError} {done : Unit}

theorem ordered_eq {m : LiteralMap} {values : List Value} (h : m.ordered = .ok values) :
    values = (m.toList.mergeSort fun a b => decide (a.2 ≤ b.2)).map Prod.fst := by
  rw [LiteralMap.ordered] at h
  split at h <;> cases h
  rfl

-- A call that succeeds was in its section and leaves its bytes. The symbol table comes first.
theorem returns_step
    (hfirst : session.poisoned = false → session.phase = .metadata → session.sink.position = 0)
    (h : Returns call.step session done after) :
    session.poisoned = false ∧ session.phase = call.phase ∧
      ∃ middle, Delivers call.emission session middle ∧
        after = { middle with phase := call.next } := by
  cases call with
  | metadata table =>
    obtain ⟨_, _, hmetadata, hpure⟩ := returns_bind_iff.mp h
    obtain ⟨_, rfl⟩ := returns_pure_iff.mp hpure
    obtain ⟨hpoisoned, hphase, _, _, _, hdelivers⟩ := returns_writeMetadata_iff.mp hmetadata
    rw [metadataEnd, hfirst hpoisoned hphase, Nat.zero_add] at hdelivers
    exact ⟨hpoisoned, hphase, hdelivers⟩
  | header s tasks =>
    obtain ⟨hpoisoned, hphase, _, hdelivers⟩ := returns_writeHeader_iff.mp h
    exact ⟨hpoisoned, hphase, hdelivers⟩
  | literals s values =>
    obtain ⟨hpoisoned, hphase, _, _, hdelivers⟩ := returns_writeLiterals_iff.mp h
    exact ⟨hpoisoned, hphase, hdelivers⟩
  | literalMap s m =>
    obtain ⟨values, hvalues, h⟩ := returns_writeLiteralMap_iff.mp h
    obtain ⟨hpoisoned, hphase, _, _, hdelivers⟩ := returns_writeLiterals_iff.mp h
    rw [ordered_eq hvalues] at hdelivers
    exact ⟨hpoisoned, hphase, hdelivers⟩
  | instruction i =>
    obtain ⟨hpoisoned, hphase, hdelivers⟩ := returns_writeInstruction_iff.mp h
    have hstays : after.phase = .code := by
      rw [hdelivers.grows]
      exact hphase
    refine ⟨hpoisoned, hphase, after, hdelivers, ?_⟩
    rw [Call.next, ← hstays]

-- A call that fails leaves a poisoned session, or it was out of order and changes nothing.
theorem fails_step (h : Fails call.step session error after) :
    after.poisoned = true ∨
      after = session ∧ ∃ attempted current, error = .outOfOrder attempted current := by
  have hguarded {α : Type} {phase : Phase} {work : Step α}
      (h : Fails (guarded phase work) session error after) : after.poisoned = true ∨
        after = session ∧ ∃ attempted current, error = .outOfOrder attempted current :=
    (fails_guarded h).imp_right fun h => ⟨h.1, _, _, h.2⟩
  cases call with
  | metadata table =>
    obtain hmetadata | ⟨_, _, _, hpure⟩ := fails_bind_iff.mp h
    · exact hguarded hmetadata
    · cases hpure
  | header s tasks => exact hguarded h
  | literals s values => exact hguarded h
  | literalMap s m =>
    change Fails (writeLiteralMap s m) session error after at h
    rw [writeLiteralMap] at h
    cases hordered : m.ordered with
    | ok values =>
      rw [hordered] at h
      exact hguarded h
    | error gap =>
      rw [hordered] at h
      cases h
      exact .inl rfl
  | instruction i => exact hguarded h

-- The calls that have succeeded by the time a section is next, each in a section of its own.
inductive Path : Phase → List Call → Prop where
  | start : Path .metadata []
  | step {calls : List Call} {call : Call} (h : Path call.phase calls) :
    Path call.next (calls ++ [call])

namespace Path

theorem metadata {calls : List Call} (h : Path .metadata calls) : calls = [] := by
  generalize hphase : Phase.metadata = phase at h
  cases h with
  | start => rfl
  | @step calls call _ => cases call <;> cases hphase

theorem header {calls : List Call} (h : Path .header calls) :
    ∃ table, calls = [.metadata table] := by
  generalize hphase : Phase.header = phase at h
  cases h with
  | start => cases hphase
  | @step calls call h =>
    cases call with
    | metadata table => exact ⟨table, by rw [h.metadata, List.nil_append]⟩
    | _ => cases hphase

theorem literals {calls : List Call} (h : Path .literals calls) :
    ∃ table s tasks, calls = [.metadata table, .header s tasks] := by
  generalize hphase : Phase.literals = phase at h
  cases h with
  | start => cases hphase
  | @step calls call h =>
    cases call with
    | header s tasks =>
      obtain ⟨table, rfl⟩ := h.header
      exact ⟨table, s, tasks, rfl⟩
    | _ => cases hphase

theorem code {calls : List Call} (h : Path .code calls) :
    ∃ table s tasks, ∃ pool : Call, ∃ code : List Instruction, pool.phase = .literals ∧
      calls = .metadata table :: .header s tasks :: pool :: code.map .instruction := by
  generalize hphase : Phase.code = phase at h
  induction h with
  | start => cases hphase
  | @step calls call h ih =>
    cases call with
    | metadata table => cases hphase
    | header s tasks => cases hphase
    | literals s values =>
      obtain ⟨table, t, tasks, rfl⟩ := h.literals
      exact ⟨table, t, tasks, .literals s values, [], rfl, rfl⟩
    | literalMap s m =>
      obtain ⟨table, t, tasks, rfl⟩ := h.literals
      exact ⟨table, t, tasks, .literalMap s m, [], rfl, rfl⟩
    | instruction i =>
      obtain ⟨table, t, tasks, pool, code, hpool, rfl⟩ := ih rfl
      refine ⟨table, t, tasks, pool, code ++ [i], hpool, ?_⟩
      rw [List.map_append, List.cons_append, List.cons_append, List.cons_append, List.map_cons,
        List.map_nil]

end Path

-- What is true of a session as long as it is not poisoned.
structure Sound (log : Log) (session : Serializer) : Prop where
  path : Path session.phase (succeeded log)
  refused : ∀ call error, (call, .error error) ∈ log →
    ∃ attempted current, error = .outOfOrder attempted current
  written : Emission.concat ((succeeded log).map Call.emission) =
    { bytes := session.sink.bytes.toList }

theorem succeeded_append (first second : Log) :
    succeeded (first ++ second) = succeeded first ++ succeeded second := List.filterMap_append ..

-- A session on an empty stream.
def fresh (limit : Option Nat) : Serializer := { sink := { bytes := #[], limit } }

theorem Sound.of_fresh (limit : Option Nat) : Sound [] (fresh limit) :=
  ⟨.start, fun _ _ hmem => absurd hmem List.not_mem_nil, rfl⟩

-- Before the symbol table nothing is on the stream.
theorem Sound.position_eq {log : Log} (h : Sound log session) (hphase : session.phase = .metadata) :
    session.sink.position = 0 := by
  have hpath := h.path
  rw [hphase] at hpath
  have hwritten := congrArg Emission.bytes h.written
  rw [hpath.metadata] at hwritten
  exact congrArg List.length hwritten.symm

theorem Sound.step {log : Log} {result : Except EncodeError Unit}
    (hsound : session.poisoned = false → Sound log session)
    (h : call.step.run session = (result, after)) (hafter : after.poisoned = false) :
    Sound (log ++ [(call, result)]) after := by
  cases result with
  | ok done =>
    obtain ⟨hpoisoned, hphase, middle, hdelivers, rfl⟩ :=
      returns_step (fun hpoisoned => (hsound hpoisoned).position_eq) h
    obtain ⟨hpath, hrefused, hwritten⟩ := hsound hpoisoned
    have hsucceeded : succeeded (log ++ [(call, .ok done)]) = succeeded log ++ [call] :=
      succeeded_append log _
    refine ⟨?_, ?_, ?_⟩
    · rw [hsucceeded]
      rw [hphase] at hpath
      exact .step hpath
    · intro other error hmem
      rcases List.mem_append.mp hmem with hmem | hmem
      · exact hrefused other error hmem
      · cases List.mem_singleton.mp hmem
    · rw [hsucceeded, List.map_append, Emission.concat_append, hwritten, List.map_singleton,
        Emission.concat_singleton, Emission.append_of_unharmed _ rfl, hdelivers.unharmed,
        hdelivers.grows, grown, Sink.toList_grown]
  | error error =>
    obtain hpoisoned | ⟨rfl, horder⟩ := fails_step h
    · rw [hafter] at hpoisoned
      cases hpoisoned
    · obtain ⟨hpath, hrefused, hwritten⟩ := hsound hafter
      have hsucceeded : succeeded (log ++ [(call, .error error)]) = succeeded log := by
        rw [succeeded_append]
        exact List.append_nil _
      refine ⟨?_, ?_, ?_⟩
      · rw [hsucceeded]
        exact hpath
      · intro other failure hmem
        rcases List.mem_append.mp hmem with hmem | hmem
        · exact hrefused other failure hmem
        · cases List.mem_singleton.mp hmem
          exact horder
      · rw [hsucceeded]
        exact hwritten

theorem Sound.perform {log : Log} (hsound : session.poisoned = false → Sound log session)
    (calls : List Call) (h : (perform session calls).2.poisoned = false) :
    Sound (log ++ (perform session calls).1) (perform session calls).2 := by
  induction calls generalizing session log with
  | nil =>
    rw [Serializer.perform, List.append_nil]
    exact hsound h
  | cons call rest ih =>
    cases hstep : call.step.run session with
    | mk result after =>
      rw [Serializer.perform, hstep] at h ⊢
      have hrest := ih (fun hafter => Sound.step hsound hstep hafter) h
      rw [List.append_assoc] at hrest
      exact hrest

-- A finished artifact: what failed had no effect, and what succeeded went through the sections in
-- order and makes up the bytes.
theorem finish_perform {limit : Option Nat} {calls : List Call} {artifact : Bytes}
    (h : (perform (fresh limit) calls).2.finish = .ok artifact) :
    (∀ call error, (call, .error error) ∈ (perform (fresh limit) calls).1 →
      ∃ attempted current, error = .outOfOrder attempted current) ∧
    (∃ table s tasks, ∃ pool : Call, ∃ code : List Instruction, pool.phase = .literals ∧
      succeeded (perform (fresh limit) calls).1 =
        .metadata table :: .header s tasks :: pool :: code.map .instruction) ∧
    Emission.concat ((succeeded (perform (fresh limit) calls).1).map Call.emission) =
      { bytes := artifact } := by
  cases hpoisoned : (perform (fresh limit) calls).2.poisoned with
  | true =>
    rw [finish, if_pos hpoisoned] at h
    cases h
  | false =>
    obtain ⟨hpath, hrefused, hwritten⟩ :=
      Sound.perform (fun _ => Sound.of_fresh limit) calls hpoisoned
    by_cases hphase : (perform (fresh limit) calls).2.phase = .code
    · rw [finish, hpoisoned, if_neg Bool.false_ne_true, if_neg (not_not_intro hphase)] at h
      cases h
      rw [hphase] at hpath
      exact ⟨hrefused, hpath.code, hwritten⟩
    · rw [finish, hpoisoned, if_neg Bool.false_ne_true, if_pos hphase] at h
      cases h

-- Calls of which the first, the third and the last come out of order.
def strayCalls : List Call :=
  [.instruction ⟨.add, [], trivial⟩, .metadata (.ofList [("main", ⟨3, ["io"]⟩)]), .metadata .empty,
    .header .empty [], .literals .empty [.int 7], .instruction ⟨.push, [0], by decide⟩,
    .header .empty []]

def strayArtifact : Bytes :=
  [44, 0, 0, 0, 1, 0, 0, 0, 0, 0, 0, 0, 3, 0, 4, 0, 0, 0, 0, 0, 0, 0, 109, 97, 105, 110, 1, 0, 0, 0,
    0, 0, 0, 0, 2, 0, 0, 0, 0, 0, 0, 0, 105, 111, 0, 0, 1, 0, 2, 0, 0, 0, 7, 0, 0, 0, 0, 0, 0, 0, 2,
    0, 0]

theorem finish_perform_strayCalls :
    (perform (fresh (some 70)) strayCalls).2.finish = .ok strayArtifact ∧
      (∀ call error, (call, .error error) ∈ (perform (fresh (some 70)) strayCalls).1 →
        ∃ attempted current, error = .outOfOrder attempted current) ∧
      (∃ table s tasks, ∃ pool : Call, ∃ code : List Instruction, pool.phase = .literals ∧
        succeeded (perform (fresh (some 70)) strayCalls).1 =
          .metadata table :: .header s tasks :: pool :: code.map .instruction) ∧
      Emission.concat ((succeeded (perform (fresh (some 70)) strayCalls).1).map Call.emission) =
        { bytes := strayArtifact } := by
  have hfinish : (perform (fresh (some 70)) strayCalls).2.finish = .ok strayArtifact := by
    decide +kernel
  exact ⟨hfinish, finish_perform hfinish⟩

end Serializer

end Conductor
