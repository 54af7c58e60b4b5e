import Conductor.Proofs.Artifact.LiteralMap
import Conductor.Proofs.Artifact.Session

namespace Conductor.Serializer

variable {session : Serializer} {error : EncodeError}

-- A poisoned session refuses the call, and so does one in another section. Neither is changed by
-- it.
def RefusesOutOfTurn (session : Serializer) (call : Call) : Prop :=
  (session.poisoned = true → Fails call.step session .poisoned session) ∧
    (session.poisoned = false → session.phase ≠ call.phase →
      Fails call.step session (.outOfOrder call.phase session.phase) session)

-- Only a literal map can be at fault before it is looked whether it is its turn.
def Call.Gapless : Call → Prop
  | literalMap _ m => m.Dense
  | _ => True

theorem fails_writeLiteralMap_of_gap {s : Store} {m : LiteralMap} (h : m.ordered = .error error) :
    Fails (writeLiteralMap s m) session error { session with poisoned := true } := by
  rw [writeLiteralMap, h]
  rfl

-- What is refused whatever the work of the section is.
theorem fails_step_of_gapless {call : Call} (hgapless : call.Gapless)
    (h : ∀ {α : Type} (work : Step α), Fails (guarded call.phase work) session error session) :
    Fails call.step session error session := by
  cases call with
  | metadata table => exact fails_bind_iff.mpr (.inl (h _))
  | header s tasks => exact h _
  | literals s values => exact h _
  | literalMap s m =>
    obtain ⟨_, hordered⟩ | ⟨hsparse, _⟩ := m.ordered_cases
    · change Fails (writeLiteralMap s m) session error session
      rw [writeLiteralMap, hordered]
      exact h _
    · exact absurd hgapless hsparse
  | instruction i => exact h _

theorem exists_gap_of_not_gapless {call : Call} (h : ¬call.Gapless) :
    ∃ s m expected found, call = .literalMap s m ∧
      m.ordered = .error (.literalIndexGap expected found) := by
  cases call with
  | literalMap s m =>
    obtain ⟨hdense, _⟩ | ⟨_, expected, found, hordered⟩ := m.ordered_cases
    · exact absurd hdense h
    · exact ⟨s, m, expected, found, rfl, hordered⟩
  | _ => exact absurd trivial h

-- Any session refuses a call out of turn as it should, unless the call has a literal map with a
-- gap. That fails on the gap and poisons the session, whether or not it is its turn, and writes
-- nothing.
theorem refusesOutOfTurn_or_gap (session : Serializer) (call : Call) :
    (call.Gapless → RefusesOutOfTurn session call) ∧
      (¬call.Gapless → ∃ expected found, Fails call.step session (.literalIndexGap expected found)
        { session with poisoned := true }) := by
  refine ⟨fun hgapless => ⟨fun hpoisoned => ?_, fun hpoisoned hphase => ?_⟩, fun hgap => ?_⟩
  · exact fails_step_of_gapless hgapless fun work => run_guarded_of_poisoned hpoisoned
  · exact fails_step_of_gapless hgapless fun work => run_guarded_of_ne hpoisoned hphase
  · obtain ⟨s, m, expected, found, rfl, hordered⟩ := exists_gap_of_not_gapless hgap
    exact ⟨expected, found, fails_writeLiteralMap_of_gap hordered⟩

-- A literal map that begins with the second index.
def gapMap : LiteralMap := .ofList [(.int 1, 1)]

theorem ordered_gapMap : gapMap.ordered = .error (.literalIndexGap 0 1) := by decide +kernel

-- Instructions before the symbol table are refused, and any literals once a gap was met.
theorem refusesOutOfTurn_or_gap_fresh :
    (Call.instruction ⟨.add, [], trivial⟩).Gapless ∧ ¬(Call.literalMap .empty gapMap).Gapless ∧
      Fails (Call.instruction ⟨.add, [], trivial⟩).step (fresh none) (.outOfOrder .code .metadata)
        (fresh none) ∧
      Fails (Call.literals .empty [.void]).step (perform (fresh none) [.literalMap .empty gapMap]).2
        .poisoned (perform (fresh none) [.literalMap .empty gapMap]).2 := by
  have hgap : ¬(Call.literalMap .empty gapMap).Gapless := by
    obtain ⟨_, hordered⟩ | ⟨hsparse, _⟩ := gapMap.ordered_cases
    · rw [ordered_gapMap] at hordered
      cases hordered
    · exact hsparse
  obtain ⟨hrefuses, _⟩ := refusesOutOfTurn_or_gap (fresh none) (.instruction ⟨.add, [], trivial⟩)
  obtain ⟨hpoisoned, _⟩ := refusesOutOfTurn_or_gap
    (perform (fresh none) [.literalMap .empty gapMap]).2 (.literals .empty [.void])
  have hlast : (perform (fresh none) [.literalMap .empty gapMap]).2.poisoned = true := by
    decide +kernel
  exact ⟨trivial, hgap, (hrefuses trivial).2 rfl (by decide), (hpoisoned trivial).1 hlast⟩

-- In the section of the symbol table the gap is reported and not the section, and the session is
-- poisoned; so it is once more when the session is poisoned.
theorem not_refusesOutOfTurn_gap :
    ¬RefusesOutOfTurn (perform (fresh none) []).2 (.literalMap .empty gapMap) ∧
      ¬RefusesOutOfTurn (perform (fresh none) [.literalMap .empty gapMap]).2
        (.literalMap .empty gapMap) ∧
      (perform (fresh none) [.literalMap .empty gapMap, .metadata .empty]).1 =
        [(.literalMap .empty gapMap, .error (.literalIndexGap 0 1)),
          (.metadata .empty, .error .poisoned)] := by
  have hgap (session : Serializer) :
      (Call.literalMap .empty gapMap).step.run session =
        (.error (.literalIndexGap 0 1), { session with poisoned := true }) :=
    fails_writeLiteralMap_of_gap ordered_gapMap
  have hpoisoned : (Call.metadata .empty).step.run { fresh none with poisoned := true } =
      (.error .poisoned, { fresh none with poisoned := true }) :=
    fails_step_of_gapless trivial fun _ => run_guarded_of_poisoned rfl
  have hfirst : perform (fresh none) [.literalMap .empty gapMap] =
      ([(.literalMap .empty gapMap, .error (.literalIndexGap 0 1))],
        { fresh none with poisoned := true }) := by
    simp only [perform, hgap]
  refine ⟨fun h => ?_, fun h => ?_, ?_⟩
  · have hrefused := h.2 rfl (by decide)
    cases (hgap _).symm.trans hrefused
  · rw [hfirst] at h
    cases (hgap _).symm.trans (h.1 rfl)
  · simp only [perform, hgap, hpoisoned]

end Conductor.Serializer
