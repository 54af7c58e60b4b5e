import Conductor.Proofs.Numeric.Positional
import Conductor.Text.Quoted

namespace Conductor.Text

-- Every character stands for itself.
def Visible (text : String) : Prop := ∀ c ∈ text.toList, isVisible c = true

-- Goes through the text, and not through all characters.
instance (text : String) : Decidable (Visible text) :=
  List.decidableBAll (fun c => isVisible c = true) text.toList

-- What ends a line is not visible: the line feed, the other controls that do, and the separators of
-- lines and paragraphs.
example : ['\n', '\x0b', '\x0c', '\r', '\u0085', '\u2028', '\u2029'].any isVisible = false := by
  decide +kernel

theorem isVisible_lineFeed : isVisible '\n' = false := by decide

variable {c : Char} {s t : String} {parts : List String}

theorem Visible.notMem (h : Visible s) (hc : isVisible c = false) : c ∉ s.toList := by
  intro hmem
  rw [h c hmem] at hc
  cases hc

theorem Visible.append (hs : Visible s) (ht : Visible t) : Visible (s ++ t) := by
  intro c hc
  rw [String.toList_append, List.mem_append] at hc
  exact hc.elim (hs c) (ht c)

theorem Visible.mem_append_iff (hs : Visible s) (hc : isVisible c = false) :
    c ∈ (s ++ t).toList ↔ c ∈ t.toList := by
  rw [String.toList_append, List.mem_append, or_iff_right (hs.notMem hc)]

-- What is in a row of texts is in one of them or between two.
theorem mem_of_mem_intercalate (h : c ∈ (s.intercalate parts).toList) :
    c ∈ s.toList ∨ ∃ part ∈ parts, c ∈ part.toList := by
  induction parts with
  | nil => cases h
  | cons head rest ih =>
    cases rest with
    | nil => exact .inr ⟨head, List.mem_cons_self, h⟩
    | cons next rest =>
      rw [String.intercalate_cons_cons, String.toList_append, String.toList_append,
        List.mem_append, List.mem_append] at h
      obtain (h | h) | h := h
      · exact .inr ⟨head, List.mem_cons_self, h⟩
      · exact .inl h
      · exact (ih h).imp_right fun ⟨part, hpart, hmem⟩ => ⟨part, List.mem_cons_of_mem _ hpart, hmem⟩

theorem mem_intercalate {part : String} (hpart : part ∈ parts) (h : c ∈ part.toList) :
    c ∈ (s.intercalate parts).toList := by
  induction parts with
  | nil => cases hpart
  | cons head rest ih =>
    cases rest with
    | nil =>
      rw [List.mem_singleton.mp hpart] at h
      exact h
    | cons next rest =>
      rw [String.intercalate_cons_cons, String.toList_append, String.toList_append,
        List.mem_append, List.mem_append]
      obtain rfl | hrest := List.mem_cons.mp hpart
      · exact .inl (.inl h)
      · exact .inr (ih hrest)

-- What is not visible in a row of texts between two marks is in one of the texts.
theorem mem_row_iff {left right : String} (hleft : Visible left) (hright : Visible right)
    (hs : Visible s) (hc : isVisible c = false) :
    c ∈ (left ++ s.intercalate parts ++ right).toList ↔ ∃ part ∈ parts, c ∈ part.toList := by
  have hl := hleft.notMem hc
  have hr := hright.notMem hc
  simp only [String.toList_append, List.mem_append, hl, hr, false_or, or_false]
  exact ⟨fun h => (mem_of_mem_intercalate h).resolve_left (hs.notMem hc),
    fun ⟨_, hpart, h⟩ => mem_intercalate hpart h⟩

theorem visible_intercalate (hs : Visible s) (hparts : ∀ part ∈ parts, Visible part) :
    Visible (s.intercalate parts) := by
  intro c hc
  obtain hc | ⟨part, hpart, hc⟩ := mem_of_mem_intercalate hc
  · exact hs c hc
  · exact hparts part hpart c hc

section Numbers

theorem isVisible_of_isDigit (h : c.isDigit = true) : isVisible c = true :=
  isVisible_of_isAlphanum c (by simp [Char.isAlphanum, h])

theorem visible_nat (n : Nat) : Visible (toString n) :=
  fun _ hc => isVisible_of_isDigit (isDigit_of_mem_toString hc)

theorem visible_int (n : Int) : Visible (toString n) := by
  rw [toString_eq_signed, signed]
  split
  · exact Visible.append (by decide) (visible_nat _)
  · exact visible_nat _

theorem visible_double (x : Double) : Visible x.text := by
  have hsign : Visible (if x.negative then "-" else "") := by split <;> decide
  have hpositional (d : Decimal) : Visible d.positional := by
    intro c hc
    obtain hdigit | rfl := d.positional_shape.2 c hc
    · exact isVisible_of_isDigit hdigit
    · decide
  rw [Double.text]
  split
  · decide
  split
  · exact hsign.append (by decide)
  split
  · exact hsign.append (by decide)
  · exact hsign.append (hpositional _)

end Numbers

section Quotes

theorem isVisible_of_mem_toDigits {n : Nat} (h : c ∈ Nat.toDigits 16 n) : isVisible c = true := by
  have hdigit : ∀ d < 16, isVisible (Nat.digitChar d) = true := by decide +kernel
  induction n using Nat.strong_induction_on with
  | h n ih =>
    by_cases hn : n < 16
    · rw [Nat.toDigits_of_lt_base hn] at h
      rw [List.mem_singleton.mp h]
      exact hdigit n hn
    · rw [Nat.toDigits_of_base_le (by decide) (Nat.not_lt.mp hn)] at h
      obtain h | h := List.mem_append.mp h
      · exact ih (n / 16) (Nat.div_lt_self (by omega) (by decide)) h
      · rw [List.mem_singleton.mp h]
        exact hdigit _ (Nat.mod_lt n (by decide))

theorem all_escapeChar (d : Char) : (escapeChar d).all isVisible = true := by
  unfold escapeChar
  split
  case h_7 =>
    split
    · exact List.all_eq_true.mpr (List.forall_mem_singleton.mpr ‹_›)
    · have hdigits : (Nat.toDigits 16 d.toNat).all isVisible = true :=
        List.all_eq_true.mpr fun c hc => isVisible_of_mem_toDigits hc
      rw [List.all_append, List.all_append, hdigits]
      rfl
  all_goals rfl

-- A quoted text is on one line, whatever stands in the text.
theorem visible_quoted (s : String) : Visible (quoted s) := by
  intro c hc
  rw [quoted, String.toList_ofList] at hc
  obtain hc | hc := List.mem_append.mp hc
  · obtain rfl | hc := List.mem_cons.mp hc
    · decide
    · obtain ⟨d, _, hd⟩ := List.mem_flatMap.mp hc
      exact List.all_eq_true.mp (all_escapeChar d) c hd
  · rw [List.mem_singleton.mp hc]
    decide

end Quotes

end Conductor.Text
