import Conductor.Artifact.Serializer
import Conductor.Proofs.Archive.Fields
import Conductor.Proofs.Artifact.Numbering
import Conductor.Proofs.Artifact.Sink

namespace Conductor

open Archive

-- A section of elements behind the number of them.
def Archive.Emission.counted {α : Type} (emit : α → Emission) (items : List α) : Emission :=
  .number 2 items.length ++ .concat (items.map emit)

theorem Archive.Emission.counted_eq {α : Type} (emit : α → Emission) (items : List α) :
    counted emit items = {
      bytes := leBytes 2 items.length ++ (concat (items.map emit)).bytes
      fault := (concat (items.map emit)).fault } := append_of_unharmed _ rfl

namespace Serializer

variable {α β : Type} {session after : Serializer} {done : Unit}

-- What a step does to a session, by how it ends.
def Returns (work : Step α) (before : Serializer) (value : α) (after : Serializer) : Prop :=
  work.run before = (.ok value, after)

def Fails (work : Step α) (before : Serializer) (error : EncodeError) (after : Serializer) : Prop :=
  work.run before = (.error error, after)

theorem returns_bind_iff {work : Step α} {next : α → Step β} {b : β} :
    Returns (work >>= next) session b after ↔
      ∃ a middle, Returns work session a middle ∧ Returns (next a) middle b after := by
  unfold Returns
  change (let ended := work.run session; ExceptT.bindCont next ended.1 ended.2) = _ ↔ _
  cases work.run session with
  | mk result middle =>
    cases result with
    | ok a =>
      constructor
      · exact fun h => ⟨a, middle, rfl, h⟩
      · rintro ⟨_, _, ⟨⟩, h⟩
        exact h
    | error error => exact ⟨nofun, nofun⟩

theorem fails_bind_iff {work : Step α} {next : α → Step β} {error : EncodeError} :
    Fails (work >>= next) session error after ↔
      Fails work session error after ∨
        ∃ a middle, Returns work session a middle ∧ Fails (next a) middle error after := by
  unfold Fails Returns
  change (let ended := work.run session; ExceptT.bindCont next ended.1 ended.2) = _ ↔ _
  cases work.run session with
  | mk result middle =>
    cases result with
    | ok a =>
      constructor
      · exact fun h => .inr ⟨a, middle, rfl, h⟩
      · rintro (⟨⟨⟩⟩ | ⟨_, _, ⟨⟩, h⟩)
        exact h
    | error failure =>
      constructor
      · rintro ⟨⟩
        exact .inl rfl
      · rintro (⟨⟨⟩⟩ | ⟨_, _, ⟨⟩, _⟩)
        rfl

theorem returns_pure_iff {a b : α} :
    Returns (pure a) session b after ↔ a = b ∧ session = after := by
  change (Except.ok a, session) = (Except.ok b, after) ↔ _
  rw [Prod.mk.injEq, Except.ok.injEq]

theorem returns_get_bind_iff {next : Serializer → Step α} {a : α} :
    Returns (get >>= next) session a after ↔ Returns (next session) session a after := Iff.rfl

theorem returns_set_bind_iff {next : PUnit → Step α} {a : α} {middle : Serializer} :
    Returns (set middle >>= next) session a after ↔ Returns (next ⟨⟩) middle a after := Iff.rfl

theorem returns_modify_bind_iff {next : PUnit → Step α} {a : α} {change : Serializer → Serializer} :
    Returns (modify change >>= next) session a after ↔ Returns (next ⟨⟩) (change session) a after :=
  Iff.rfl

theorem returns_enter_iff {phase : Phase} :
    Returns (enter phase) session done after ↔ after = { session with phase } := by
  change (Except.ok (), { session with phase }) = (Except.ok (), after) ↔ _
  rw [Prod.mk.injEq]
  exact ⟨fun h => h.2.symm, fun h => ⟨rfl, h.symm⟩⟩

theorem run_tryCatch (work : Step α) (handler : EncodeError → Step α) (session : Serializer) :
    (tryCatch work handler).run session =
      match work.run session with
      | (.ok a, middle) => (.ok a, middle)
      | (.error error, middle) => (handler error).run middle := by
  simp only [tryCatch, tryCatchThe, MonadExceptOf.tryCatch, ExceptT.tryCatch, ExceptT.run,
    ExceptT.mk, bind, StateT.bind]
  cases work session with
  | mk result middle =>
    cases result <;> rfl

-- A section begins only when it is its turn, and if its work fails it poisons the session.
theorem run_guarded_of_poisoned {phase : Phase} {work : Step α} (h : session.poisoned = true) :
    (guarded phase work).run session = (.error .poisoned, session) := by
  change (if session.poisoned then throw .poisoned else _ : Step α).run session = _
  rw [if_pos h]
  rfl

theorem run_guarded_of_ne {phase : Phase} {work : Step α} (hpoisoned : session.poisoned = false)
    (h : session.phase ≠ phase) :
    (guarded phase work).run session = (.error (.outOfOrder phase session.phase), session) := by
  change (if session.poisoned then throw .poisoned
    else if session.phase ≠ phase then throw (.outOfOrder phase session.phase)
    else _ : Step α).run session = _
  rw [hpoisoned, if_neg Bool.false_ne_true, if_pos h]
  rfl

theorem run_guarded {phase : Phase} {work : Step α} (hpoisoned : session.poisoned = false)
    (h : session.phase = phase) :
    (guarded phase work).run session =
      match work.run session with
      | (.ok a, middle) => (.ok a, middle)
      | (.error error, middle) => (.error error, { middle with poisoned := true }) := by
  change (if session.poisoned then throw .poisoned
    else if session.phase ≠ phase then throw (.outOfOrder phase session.phase)
    else tryCatch work _ : Step α).run session = _
  rw [hpoisoned, if_neg Bool.false_ne_true, if_neg (not_not_intro h), run_tryCatch]
  rfl

theorem returns_guarded_iff {phase : Phase} {work : Step α} {a : α} :
    Returns (guarded phase work) session a after ↔
      session.poisoned = false ∧ session.phase = phase ∧ Returns work session a after := by
  unfold Returns
  cases hpoisoned : session.poisoned with
  | true =>
    rw [run_guarded_of_poisoned hpoisoned]
    exact ⟨nofun, nofun⟩
  | false =>
    by_cases hphase : session.phase = phase
    · rw [run_guarded hpoisoned hphase]
      simp only [hphase, true_and]
      cases work.run session with
      | mk result middle =>
        cases result with
        | ok => rfl
        | error => exact ⟨nofun, nofun⟩
    · rw [run_guarded_of_ne hpoisoned hphase]
      exact ⟨nofun, fun h => absurd h.2.1 hphase⟩

theorem fails_guarded {phase : Phase} {work : Step α} {error : EncodeError}
    (h : Fails (guarded phase work) session error after) :
    after.poisoned = true ∨ after = session ∧ error = .outOfOrder phase session.phase := by
  unfold Fails at h
  cases hpoisoned : session.poisoned with
  | true =>
    rw [run_guarded_of_poisoned hpoisoned] at h
    cases h
    exact .inl hpoisoned
  | false =>
    by_cases hphase : session.phase = phase
    · rw [run_guarded hpoisoned hphase] at h
      cases hwork : work.run session with
      | mk result middle =>
        rw [hwork] at h
        cases result with
        | ok => cases h
        | error =>
          cases h
          exact .inl rfl
    · rw [run_guarded_of_ne hpoisoned hphase] at h
      cases h
      exact .inr ⟨rfl, rfl⟩

-- A session with more bytes on its stream.
def grown (session : Serializer) (bytes : Bytes) : Serializer :=
  { session with sink := session.sink.grown bytes }

-- The whole emission gets on the stream.
structure Delivers (emission : Emission) (before after : Serializer) : Prop where
  unharmed : emission.fault = none
  takes : before.sink.Takes emission.bytes
  grows : after = before.grown emission.bytes

theorem Delivers.position_eq {emission : Emission} (h : Delivers emission session after) :
    after.sink.position = session.sink.position + emission.bytes.length := by
  rw [h.grows]
  exact Sink.position_grown ..

theorem delivers_append_iff {first second : Emission} :
    Delivers (first ++ second) session after ↔
      ∃ middle, Delivers first session middle ∧ Delivers second middle after := by
  constructor
  · rintro ⟨hfault, htakes, rfl⟩
    have hfirst : first.fault = none := by
      cases hfirst : first.fault with
      | none => rfl
      | some error =>
        change (Emission.append first second).fault = none at hfault
        rw [Emission.append, hfirst] at hfault
        exact absurd (hfirst.symm.trans hfault) (Option.some_ne_none error)
    rw [Emission.append_of_unharmed second hfirst] at hfault htakes ⊢
    obtain ⟨htakes, htakes'⟩ := Sink.takes_append_iff.mp htakes
    exact ⟨session.grown first.bytes, ⟨hfirst, htakes, rfl⟩, hfault, htakes',
      congrArg (fun sink => { session with sink }) (Sink.grown_grown ..).symm⟩
  · rintro ⟨_, ⟨hfirst, htakes, rfl⟩, ⟨hsecond, htakes', rfl⟩⟩
    rw [Emission.append_of_unharmed second hfirst]
    exact ⟨hsecond, Sink.takes_append_iff.mpr ⟨htakes, htakes'⟩,
      congrArg (fun sink => { session with sink }) (Sink.grown_grown ..)⟩

theorem returns_put_iff {bytes : Bytes} :
    Returns (put bytes) session done after ↔ Delivers { bytes } session after := by
  rw [put, returns_get_bind_iff]
  cases hwrite : session.sink.write bytes with
  | mk complete sink =>
    cases complete with
    | true =>
      obtain ⟨htakes, rfl⟩ := Sink.write_iff.mp hwrite
      constructor
      · intro h
        exact ⟨rfl, htakes, (returns_pure_iff.mp h).2.symm⟩
      · intro h
        exact returns_pure_iff.mpr ⟨rfl, h.grows.symm⟩
    | false =>
      refine ⟨nofun, fun h => ?_⟩
      rw [Sink.write_iff.mpr ⟨h.takes, rfl⟩] at hwrite
      cases hwrite

theorem returns_emit_iff {emission : Emission} :
    Returns (emit emission) session done after ↔ Delivers emission session after := by
  rw [emit, returns_get_bind_iff]
  cases hwrite : session.sink.write emission.bytes with
  | mk complete sink =>
    cases complete with
    | true =>
      obtain ⟨htakes, rfl⟩ := Sink.write_iff.mp hwrite
      rw [returns_set_bind_iff]
      cases hfault : emission.fault with
      | none =>
        constructor
        · intro h
          exact ⟨hfault, htakes, (returns_pure_iff.mp h).2.symm⟩
        · intro h
          exact returns_pure_iff.mpr ⟨rfl, h.grows.symm⟩
      | some error => exact ⟨nofun, fun h => absurd (hfault.symm.trans h.unharmed) nofun⟩
    | false =>
      refine ⟨nofun, fun h => ?_⟩
      rw [Sink.write_iff.mpr ⟨h.takes, rfl⟩] at hwrite
      cases hwrite

theorem returns_emit_bind_iff {emission : Emission} {next : Unit → Step α} {a : α} :
    Returns (emit emission >>= next) session a after ↔
      ∃ middle, Delivers emission session middle ∧ Returns (next ()) middle a after := by
  simp only [returns_bind_iff, returns_emit_iff]
  exact ⟨fun ⟨_, middle, h⟩ => ⟨middle, h⟩, fun ⟨middle, h⟩ => ⟨(), middle, h⟩⟩

theorem returns_putCount_iff {what : Counted} {count : Nat} :
    Returns (putCount what count) session done after ↔
      count ≤ what.limit ∧ Delivers (.number 2 count) session after := by
  rw [putCount]
  by_cases h : what.limit < count
  · rw [if_pos h]
    exact ⟨nofun, fun hcount => absurd h (Nat.not_lt.mpr hcount.1)⟩
  · rw [if_neg h]
    exact returns_put_iff.trans (and_iff_right (Nat.not_lt.mp h)).symm

theorem returns_counted_iff {what : Counted} {emitItem : α → Emission} {items : List α}
    {phase : Phase} :
    Returns (do putCount what items.length; emit (.concat (items.map emitItem)); enter phase)
        session done after ↔
      items.length ≤ what.limit ∧ ∃ middle, Delivers (.counted emitItem items) session middle ∧
        after = { middle with phase } := by
  simp only [returns_bind_iff, returns_putCount_iff, returns_emit_iff, returns_enter_iff,
    Emission.counted, delivers_append_iff]
  constructor
  · rintro ⟨_, first, ⟨hcount, hfirst⟩, _, second, hsecond, rfl⟩
    exact ⟨hcount, second, ⟨first, hfirst, hsecond⟩, rfl⟩
  · rintro ⟨hcount, second, ⟨first, hfirst, hsecond⟩, rfl⟩
    exact ⟨(), first, ⟨hcount, hfirst⟩, (), second, hsecond, rfl⟩

-- Where the symbol table ends that begins here.
def metadataEnd (session : Serializer) (payload : Emission) : Nat :=
  session.sink.position + 4 + payload.bytes.length

-- The leading word has its place before the table is there, and its value when the table ends.
theorem delivers_number_append_iff {payload : Emission} {finish : Nat} :
    Delivers (.number 4 finish ++ payload) session after ↔
      ∃ middle sealed, Delivers (.number 4 0) session middle ∧ Delivers payload middle sealed ∧
        after = { sealed with
          sink := sealed.sink.overwrite session.sink.position (leBytes 4 finish) } := by
  have htakes : session.sink.Takes (leBytes 4 finish ++ payload.bytes) ↔
      session.sink.Takes (leBytes 4 0 ++ payload.bytes) := by
    simp only [Sink.Takes, List.length_append, length_leBytes]
  have hsink : ((session.sink.grown (leBytes 4 0)).grown payload.bytes).overwrite
      session.sink.position (leBytes 4 finish) =
        session.sink.grown (leBytes 4 finish ++ payload.bytes) := by
    have hold : ((session.sink.grown (leBytes 4 0)).grown payload.bytes).bytes.toList =
        session.sink.bytes.toList ++ leBytes 4 0 ++ payload.bytes := by
      rw [Sink.toList_grown, Sink.toList_grown]
    have hrest : (session.sink.grown (leBytes 4 finish ++ payload.bytes)).rest =
        ((session.sink.grown (leBytes 4 0)).grown payload.bytes).rest := by
      simp only [Sink.rest_grown, List.length_append, length_leBytes, List.drop_drop]
    refine Sink.ext_toList ?_ (Sink.limit_overwrite ..) ((Sink.rest_overwrite ..).trans hrest.symm)
    rw [Sink.position_eq, Sink.toList_overwrite (by rw [length_leBytes, length_leBytes]) hold,
      Sink.toList_grown, List.append_assoc]
  rw [Emission.append_of_unharmed payload rfl]
  constructor
  · rintro ⟨hfault, hfits, rfl⟩
    obtain ⟨hword, hpayload⟩ := Sink.takes_append_iff.mp (htakes.mp hfits)
    exact ⟨_, _, ⟨rfl, hword, rfl⟩, ⟨hfault, hpayload, rfl⟩,
      congrArg (fun sink => { session with sink }) hsink.symm⟩
  · rintro ⟨_, _, ⟨_, hword, rfl⟩, ⟨hfault, hpayload, rfl⟩, rfl⟩
    exact ⟨hfault, htakes.mpr (Sink.takes_append_iff.mpr ⟨hword, hpayload⟩),
      congrArg (fun sink => { session with sink }) hsink⟩

theorem returns_seal_iff {start : Nat} {word : UInt32} :
    Returns (do
      let finish := (← get).sink.position
      if Counted.metadataBytes.limit < finish then throw (.tooMany .metadataBytes finish)
      modify fun session =>
        { session with sink := session.sink.overwrite start (leBytes 4 finish) }
      enter .header
      return UInt32.ofNat finish) session word after ↔
      session.sink.position ≤ Counted.metadataBytes.limit ∧
        word = UInt32.ofNat session.sink.position ∧
        after = { session with
          sink := session.sink.overwrite start (leBytes 4 session.sink.position)
          phase := .header } := by
  rw [returns_get_bind_iff]
  by_cases h : Counted.metadataBytes.limit < session.sink.position
  · rw [if_pos h]
    exact ⟨nofun, fun hfits => absurd h (Nat.not_lt.mpr hfits.1)⟩
  · rw [if_neg h, returns_modify_bind_iff, returns_bind_iff]
    simp only [returns_enter_iff, returns_pure_iff]
    constructor
    · rintro ⟨_, _, rfl, rfl, rfl⟩
      exact ⟨Nat.not_lt.mp h, rfl, rfl⟩
    · rintro ⟨_, rfl, rfl⟩
      exact ⟨(), _, rfl, rfl, rfl⟩

theorem returns_writeMetadata_iff {table : SymbolTable} {word : UInt32} :
    Returns (writeMetadata table) session word after ↔
      session.poisoned = false ∧ session.phase = .metadata ∧
        (table.toList.map fun function => function.2.id).Nodup ∧
        session.metadataEnd (SymbolTable.emission table.byId) ≤ Counted.metadataBytes.limit ∧
        word = UInt32.ofNat (session.metadataEnd (SymbolTable.emission table.byId)) ∧
        ∃ middle, Delivers
            (.number 4 (session.metadataEnd (SymbolTable.emission table.byId)) ++
              SymbolTable.emission table.byId) session middle ∧
          after = { middle with phase := .header } := by
  rw [writeMetadata, returns_guarded_iff]
  cases hindexed : table.indexed with
  | error error =>
    refine ⟨nofun, fun h => ?_⟩
    rw [SymbolTable.indexed_eq_ok_iff.mpr ⟨h.2.2.1, rfl⟩] at hindexed
    cases hindexed
  | ok functions =>
    obtain ⟨hids, rfl⟩ := SymbolTable.indexed_eq_ok_iff.mp hindexed
    refine and_congr_right fun _ => and_congr_right fun _ => ?_
    rw [and_iff_right hids]
    have hlift : writeMetadata.liftExcept (.ok table.byId) = pure table.byId := rfl
    rw [hlift, pure_bind, returns_get_bind_iff, returns_bind_iff]
    simp only [returns_put_iff, returns_emit_bind_iff, returns_seal_iff]
    simp only [delivers_number_append_iff]
    generalize SymbolTable.emission table.byId = payload
    have hend {first second : Serializer} (hfirst : Delivers (.number 4 0) session first)
        (hsecond : Delivers payload first second) :
        second.sink.position = session.metadataEnd payload := by
      rw [hsecond.position_eq, hfirst.position_eq]
      rfl
    constructor
    · rintro ⟨_, first, hfirst, second, hsecond, hlimit, rfl, rfl⟩
      rw [hend hfirst hsecond] at hlimit ⊢
      exact ⟨hlimit, rfl, _, ⟨first, second, hfirst, hsecond, rfl⟩, rfl⟩
    · rintro ⟨hlimit, rfl, _, ⟨first, second, hfirst, hsecond, rfl⟩, rfl⟩
      rw [← hend hfirst hsecond] at hlimit ⊢
      exact ⟨(), first, hfirst, second, hsecond, hlimit, rfl, rfl⟩

theorem returns_writeHeader_iff {s : Store} {tasks : List (TaskRecord Value)} :
    Returns (writeHeader s tasks) session done after ↔
      session.poisoned = false ∧ session.phase = .header ∧ tasks.length ≤ Counted.tasks.limit ∧
        ∃ middle, Delivers (.counted (TaskRecord.emission s.emission) tasks) session middle ∧
          after = { middle with phase := .literals } := by
  rw [writeHeader, returns_guarded_iff, returns_counted_iff]

theorem returns_writeLiterals_iff {s : Store} {literals : List Value} :
    Returns (writeLiterals s literals) session done after ↔
      session.poisoned = false ∧ session.phase = .literals ∧
        (∀ v ∈ literals, ¬v.isVoid) ∧ literals.length ≤ Counted.literals.limit ∧
        ∃ middle, Delivers (.counted s.emission literals) session middle ∧
          after = { middle with phase := .code } := by
  rw [writeLiterals, returns_guarded_iff]
  cases hvoid : literals.findIdx? Value.isVoid with
  | some index =>
    obtain ⟨hindex, hv, _⟩ := List.findIdx?_eq_some_iff_getElem.mp hvoid
    exact ⟨nofun, fun h => absurd hv (h.2.2.1 _ (List.getElem_mem hindex))⟩
  | none =>
    have hnone : ∀ v ∈ literals, ¬v.isVoid := by simpa using hvoid
    rw [returns_counted_iff]
    exact and_congr_right fun _ => and_congr_right fun _ => (and_iff_right hnone).symm

theorem returns_writeLiteralMap_iff {s : Store} {m : LiteralMap} :
    Returns (writeLiteralMap s m) session done after ↔
      ∃ literals, m.ordered = .ok literals ∧
        Returns (writeLiterals s literals) session done after := by
  rw [writeLiteralMap]
  cases m.ordered with
  | ok literals =>
    exact ⟨fun h => ⟨literals, rfl, h⟩, by rintro ⟨_, ⟨⟩, h⟩; exact h⟩
  | error error => exact ⟨nofun, nofun⟩

theorem returns_writeInstruction_iff {instruction : Instruction} :
    Returns (writeInstruction instruction) session done after ↔
      session.poisoned = false ∧ session.phase = .code ∧
        Delivers { bytes := instruction.encode } session after := by
  rw [writeInstruction, returns_guarded_iff, returns_put_iff]

end Serializer

end Conductor
