import Conductor.Proofs.Archive.Accepted

namespace Conductor

namespace Archive

variable {α β : Type} {read : Reader α}

def SelfDelimiting (read : Reader α) : Prop := Accepts read fun a front => Reads read front a

-- No bytes that a reader takes go on as others that it takes.
theorem Reads.unique {first second rest tail : Bytes} {a b : α} (ha : Reads read first a)
    (hb : Reads read second b) (h : first ++ rest = second ++ tail) :
    a = b ∧ first = second ∧ rest = tail := by
  have hread := ha rest
  rw [h, hb tail] at hread
  obtain ⟨rfl, rfl⟩ := Prod.mk.inj (Except.ok.inj hread)
  exact ⟨rfl, List.append_cancel_right h, rfl⟩

namespace SelfDelimiting

theorem pure (a : α) : SelfDelimiting (pure a) := Accepts.pure (.pure a)

theorem throw (fault : Fault) : SelfDelimiting (throw fault : Reader α) := Accepts.throw fault

theorem bind {next : α → Reader β} (ha : SelfDelimiting read) (hb : ∀ a, SelfDelimiting (next a)) :
    SelfDelimiting (read >>= next) :=
  Accepts.bind ha fun a _ hfirst => (hb a).imp fun _ _ hsecond => hfirst.bind hsecond

theorem number (width : Nat) : SelfDelimiting (Reader.number width) :=
  (Accepts.number width).imp fun _ _ ⟨hlt, hfront⟩ => hfront ▸ .number hlt

theorem text : SelfDelimiting Reader.text :=
  Accepts.text.imp fun _ _ ⟨hsized, hfront⟩ => hfront ▸ .text hsized

theorem bool : SelfDelimiting Reader.bool := Accepts.bool.imp fun b _ hfront => hfront ▸ .bool b

theorem tag : SelfDelimiting Reader.tag := Accepts.tag.imp fun t _ hfront => hfront ▸ .tag t

theorem choice (values : List α) : SelfDelimiting (Reader.choice values) := by
  refine bind (number 4) fun index => ?_
  cases values[index]? with
  | none => exact throw _
  | some value => exact pure value

theorem times (h : SelfDelimiting read) (n : Nat) : SelfDelimiting (Reader.times read n) := by
  induction n with
  | zero => exact pure []
  | succ n ih => exact bind h fun head => bind ih fun rest => pure (head :: rest)

theorem seq (h : SelfDelimiting read) : SelfDelimiting (Reader.seq read) :=
  bind (number 8) (times h)

end SelfDelimiting

end Archive

open Archive

theorem Archived.selfDelimiting_decode : SelfDelimiting Archived.decode :=
  Archived.accepts_encode.imp fun _ _ ⟨hsized, hfront⟩ => hfront ▸ Archived.reads_decode hsized

end Conductor
