import Conductor.Proofs.Text.Utf8
import Mathlib.Data.List.Lex

namespace Conductor.Utf8

-- The first byte of a character with this number.
def leading (n : Nat) : Nat :=
  if n < 0x80 then n
  else if n < 0x800 then 0xC0 + n / 64
  else if n < 0x10000 then 0xE0 + n / 4096
  else 0xF0 + n / 262144

theorem exists_encodeChar_eq (c : Char) :
    ∃ rest, encodeChar c = UInt8.ofNat (leading c.toNat) :: rest := by
  unfold encodeChar leading
  dsimp only
  split_ifs <;> exact ⟨_, rfl⟩

theorem leading_lt {n : Nat} (h : n < 0x110000) : leading n < 256 := by
  unfold leading
  split_ifs <;> omega

theorem leading_le {m n : Nat} (hle : m ≤ n) (h : n < 0x110000) : leading m ≤ leading n := by
  unfold leading
  split_ifs <;> omega

-- Characters that begin with the same byte have as many bytes.
theorem bounds_of_leading_eq {m n : Nat} (hle : m ≤ n) (h : n < 0x110000)
    (heq : leading m = leading n) :
    (n < 0x80 ↔ m < 0x80) ∧ (n < 0x800 ↔ m < 0x800) ∧ (n < 0x10000 ↔ m < 0x10000) := by
  unfold leading at heq
  split_ifs at heq <;> omega

-- Bytes compare by the first that differs.
theorem cons_lt_cons {m n : Nat} {first second : Bytes} (hm : m < 256) (hn : n < 256)
    (h : m < n ∨ m = n ∧ first < second) : UInt8.ofNat m :: first < UInt8.ofNat n :: second := by
  rw [List.cons_lt_cons_iff, UInt8.lt_iff_toNat_lt, ← UInt8.toNat_inj, toNat_ofNat_of_lt hm,
    toNat_ofNat_of_lt hn]
  exact h

-- A byte of a character that is not its last one.
theorem cons_lt_cons_of_le {m n : Nat} {first second : Bytes} (hm : m < 256) (hn : n < 256)
    (hle : m ≤ n) (h : m = n → first < second) :
    UInt8.ofNat m :: first < UInt8.ofNat n :: second :=
  cons_lt_cons hm hn ((Nat.lt_or_eq_of_le hle).imp_right fun heq => ⟨heq, h heq⟩)

-- The first byte grows with the character, and behind an equal one the higher digits come first.
theorem encodeChar_append_lt {c d : Char} (h : c < d) (first second : Bytes) :
    encodeChar c ++ first < encodeChar d ++ second := by
  have hlt : c.toNat < d.toNat := h
  have hrange := toNat_range d
  have hd : d.toNat < 0x110000 := by omega
  obtain hleading | hleading := Nat.lt_or_eq_of_le (leading_le hlt.le hd)
  · obtain ⟨rest, hc⟩ := exists_encodeChar_eq c
    obtain ⟨others, hothers⟩ := exists_encodeChar_eq d
    rw [hc, hothers, List.cons_append, List.cons_append]
    exact cons_lt_cons (leading_lt (hlt.trans hd)) (leading_lt hd) (.inl hleading)
  obtain ⟨hone, htwo, hthree⟩ := bounds_of_leading_eq hlt.le hd hleading
  unfold leading at hleading
  unfold encodeChar
  generalize c.toNat = m at *
  generalize d.toNat = n at *
  by_cases h1 : m < 0x80
  · simp only [hone.mpr h1, h1, ite_true] at hleading
    omega
  by_cases h2 : m < 0x800
  · simp only [hone, htwo, h1, h2, ite_true, ite_false, List.cons_append]
    refine cons_lt_cons_of_le (by omega) (by omega) (by omega) fun _ => ?_
    exact cons_lt_cons (by omega) (by omega) (.inl (by omega))
  by_cases h3 : m < 0x10000
  · simp only [hone, htwo, hthree, h1, h2, h3, ite_true, ite_false, List.cons_append]
    refine cons_lt_cons_of_le (by omega) (by omega) (by omega) fun _ => ?_
    refine cons_lt_cons_of_le (by omega) (by omega) (by omega) fun _ => ?_
    exact cons_lt_cons (by omega) (by omega) (.inl (by omega))
  · simp only [hone, htwo, hthree, h1, h2, h3, ite_false, List.cons_append]
    refine cons_lt_cons_of_le (by omega) (by omega) (by omega) fun _ => ?_
    refine cons_lt_cons_of_le (by omega) (by omega) (by omega) fun _ => ?_
    refine cons_lt_cons_of_le (by omega) (by omega) (by omega) fun _ => ?_
    exact cons_lt_cons (by omega) (by omega) (.inl (by omega))

theorem flatMap_encodeChar_lt {chars others : List Char} (h : chars < others) :
    chars.flatMap encodeChar < others.flatMap encodeChar := by
  induction h with
  | @nil c rest =>
    obtain ⟨bytes, hbytes⟩ := exists_encodeChar_eq c
    rw [List.flatMap_nil, List.flatMap_cons, hbytes]
    exact List.nil_lt_cons _ _
  | @cons c rest others _ ih =>
    rw [List.flatMap_cons, List.flatMap_cons]
    exact List.Lex.append_left _ ih _
  | @rel c rest d others hlt =>
    rw [List.flatMap_cons, List.flatMap_cons]
    exact encodeChar_append_lt hlt _ _

theorem encode_lt_iff {a b : String} : encode a < encode b ↔ a < b := by
  have hmono {a b : String} (h : a < b) : encode a < encode b :=
    flatMap_encodeChar_lt (String.lt_iff.mp h)
  refine ⟨fun h => ?_, hmono⟩
  by_contra hnot
  by_cases heq : a = b
  · exact List.lt_irrefl _ (heq ▸ h)
  · exact List.lt_asymm h (hmono (Std.lt_of_le_of_ne (Std.not_lt.mp hnot) (Ne.symm heq)))

end Conductor.Utf8
