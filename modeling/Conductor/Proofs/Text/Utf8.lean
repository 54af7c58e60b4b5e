import Conductor.Text.Utf8

namespace Conductor.Utf8

theorem toNat_ofNat_of_lt {n : Nat} (h : n < 256) : (UInt8.ofNat n).toNat = n := by
  simp only [UInt8.toNat_ofNat']
  omega

-- The numbers of characters leave out the surrogates.
theorem toNat_range (c : Char) :
    c.toNat < 0xD800 ∨ 0xDFFF < c.toNat ∧ c.toNat < 0x110000 := c.valid

theorem scan_ascii {start n : Nat} {rest : Bytes} (h : n < 0x80) :
    scan start none (UInt8.ofNat n :: rest) =
      (Char.ofNat n :: ·) <$> scan (start + 1) none rest := by
  rw [scan, toNat_ofNat_of_lt (by omega), if_pos h]

theorem scan_lead {start n : Nat} {pending : Pending} {rest : Bytes} (hlow : 0x80 ≤ n)
    (hhigh : n < 256) (h : lead? n = some pending) :
    scan start none (UInt8.ofNat n :: rest) = scan start (some pending) rest := by
  rw [scan, toNat_ofNat_of_lt hhigh, if_neg (by omega), h]

theorem scan_last {start value seen low high n : Nat} {rest : Bytes} (hn : n < 64)
    (hlow : low ≤ 0x80 + n) (hhigh : 0x80 + n ≤ high) :
    scan start (some ⟨value, seen, 1, low, high⟩) (UInt8.ofNat (0x80 + n) :: rest) =
      (Char.ofNat (value * 64 + n) :: ·) <$> scan (start + seen + 1) none rest := by
  simp only [scan, toNat_ofNat_of_lt (show 0x80 + n < 256 by omega), hlow, hhigh, and_self,
    ite_true, Nat.add_sub_cancel_left, Nat.le_refl]

theorem scan_middle {start value seen missing low high n : Nat} {rest : Bytes} (hn : n < 64)
    (hlow : low ≤ 0x80 + n) (hhigh : 0x80 + n ≤ high) :
    scan start (some ⟨value, seen, missing + 2, low, high⟩) (UInt8.ofNat (0x80 + n) :: rest) =
      scan start (some ⟨value * 64 + n, seen + 1, missing + 1, 0x80, 0xBF⟩) rest := by
  simp only [scan, toNat_ofNat_of_lt (show 0x80 + n < 256 by omega), hlow, hhigh, and_self,
    ite_true, Nat.add_sub_cancel_left, show ¬missing + 2 ≤ 1 by omega, ite_false]
  rfl

theorem scan_encodeChar (start : Nat) (c : Char) (rest : Bytes) :
    scan start none (encodeChar c ++ rest) =
      (c :: ·) <$> scan (start + (encodeChar c).length) none rest := by
  have hrange := toNat_range c
  have hback : Char.ofNat c.toNat = c := Char.ofNat_toNat c
  unfold encodeChar
  generalize c.toNat = n at *
  by_cases h1 : n < 0x80
  · simp only [h1, ite_true, List.cons_append, List.nil_append, scan_ascii, hback,
      List.length_singleton]
  by_cases h2 : n < 0x800
  · have hlead : lead? (0xC0 + n / 64) = some ⟨n / 64, 1, 1, 0x80, 0xBF⟩ := by
      rw [lead?, if_neg (by omega), if_pos (by omega), Nat.add_sub_cancel_left]
    simp only [h1, h2, ite_true, ite_false, List.cons_append, List.nil_append]
    rw [scan_lead (by omega) (by omega) hlead,
      scan_last (by omega) (by omega) (by omega), show n / 64 * 64 + n % 64 = n by omega, hback]
    rfl
  by_cases h3 : n < 0x10000
  · have hlead : lead? (0xE0 + n / 4096) =
        some ⟨n / 4096, 1, 2, if 0xE0 + n / 4096 = 0xE0 then 0xA0 else 0x80,
          if 0xE0 + n / 4096 = 0xED then 0x9F else 0xBF⟩ := by
      rw [lead?, if_neg (by omega), if_neg (by omega), if_pos (by omega), Nat.add_sub_cancel_left]
    simp only [h1, h2, h3, ite_true, ite_false, List.cons_append, List.nil_append]
    -- The second byte has narrower bounds after the first and the last but one lead byte.
    rw [scan_lead (by omega) (by omega) hlead,
      scan_middle (by omega) (by split <;> omega) (by split <;> omega),
      scan_last (by omega) (by omega) (by omega),
      show (n / 4096 * 64 + n / 64 % 64) * 64 + n % 64 = n by omega, hback]
    rfl
  · have hlead : lead? (0xF0 + n / 262144) =
        some ⟨n / 262144, 1, 3, if 0xF0 + n / 262144 = 0xF0 then 0x90 else 0x80,
          if 0xF0 + n / 262144 = 0xF4 then 0x8F else 0xBF⟩ := by
      rw [lead?, if_neg (by omega), if_neg (by omega), if_neg (by omega), if_pos (by omega),
        Nat.add_sub_cancel_left]
    simp only [h1, h2, h3, ite_false, List.cons_append, List.nil_append]
    rw [scan_lead (by omega) (by omega) hlead,
      scan_middle (by omega) (by split <;> omega) (by split <;> omega),
      scan_middle (by omega) (by omega) (by omega), scan_last (by omega) (by omega) (by omega),
      show ((n / 262144 * 64 + n / 4096 % 64) * 64 + n / 64 % 64) * 64 + n % 64 = n by omega,
      hback]
    rfl

theorem scan_encode (start : Nat) (chars : List Char) :
    scan start none (chars.flatMap encodeChar) = .ok chars := by
  induction chars generalizing start with
  | nil => rfl
  | cons c rest ih =>
    rw [List.flatMap_cons, scan_encodeChar, ih]
    rfl

theorem decode_encode (s : String) : decode (encode s) = .ok s := by
  rw [decode, encode, scan_encode]
  simp only [Functor.map, Except.map, String.ofList_toList]

section Inverse

theorem toNat_ofNat_of_isValidChar {n : Nat} (h : n.isValidChar) : (Char.ofNat n).toNat = n := by
  rw [Char.ofNat, dif_pos h]
  rfl

theorem encodeChar_one {n : Nat} (h : n < 0x80) : encodeChar (Char.ofNat n) = [UInt8.ofNat n] := by
  have hvalid : n.isValidChar := .inl (by omega)
  simp only [encodeChar, toNat_ofNat_of_isValidChar hvalid, h, ite_true]

theorem encodeChar_two {n d : Nat} (hlow : 2 ≤ n) (hhigh : n < 32) (hd : d < 64) :
    encodeChar (Char.ofNat (n * 64 + d)) = [UInt8.ofNat (0xC0 + n), UInt8.ofNat (0x80 + d)] := by
  have hvalid : (n * 64 + d).isValidChar := .inl (by omega)
  simp only [encodeChar, toNat_ofNat_of_isValidChar hvalid, show ¬n * 64 + d < 0x80 by omega,
    show n * 64 + d < 0x800 by omega, ite_true, ite_false, show (n * 64 + d) / 64 = n by omega,
    show (n * 64 + d) % 64 = d by omega]

theorem encodeChar_three {n d e : Nat} (hn : n < 16) (hd : d < 64) (he : e < 64)
    (hlow : n = 0 → 32 ≤ d) (hhigh : n = 13 → d < 32) :
    encodeChar (Char.ofNat ((n * 64 + d) * 64 + e)) =
      [UInt8.ofNat (0xE0 + n), UInt8.ofNat (0x80 + d), UInt8.ofNat (0x80 + e)] := by
  generalize hcode : (n * 64 + d) * 64 + e = code
  have hvalid : code.isValidChar := by
    unfold Nat.isValidChar
    omega
  simp only [encodeChar, toNat_ofNat_of_isValidChar hvalid, show ¬code < 0x80 by omega,
    show ¬code < 0x800 by omega, show code < 0x10000 by omega, ite_true, ite_false,
    show code / 4096 = n by omega, show code / 64 % 64 = d by omega, show code % 64 = e by omega]

theorem encodeChar_four {n d e f : Nat} (hn : n < 5) (hd : d < 64) (he : e < 64) (hf : f < 64)
    (hlow : n = 0 → 16 ≤ d) (hhigh : n = 4 → d < 16) :
    encodeChar (Char.ofNat (((n * 64 + d) * 64 + e) * 64 + f)) =
      [UInt8.ofNat (0xF0 + n), UInt8.ofNat (0x80 + d), UInt8.ofNat (0x80 + e),
        UInt8.ofNat (0x80 + f)] := by
  generalize hcode : ((n * 64 + d) * 64 + e) * 64 + f = code
  have hvalid : code.isValidChar := by
    unfold Nat.isValidChar
    omega
  simp only [encodeChar, toNat_ofNat_of_isValidChar hvalid, show ¬code < 0x80 by omega,
    show ¬code < 0x800 by omega, show ¬code < 0x10000 by omega, ite_false,
    show code / 262144 = n by omega, show code / 4096 % 64 = d by omega,
    show code / 64 % 64 = e by omega, show code % 64 = f by omega]

theorem lead?_cases {byte : Nat} {pending : Pending} (h : lead? byte = some pending) :
    (∃ n, 2 ≤ n ∧ n < 32 ∧ byte = 0xC0 + n ∧ pending = ⟨n, 1, 1, 0x80, 0xBF⟩) ∨
    (∃ n, n < 16 ∧ byte = 0xE0 + n ∧
      pending = ⟨n, 1, 2, if n = 0 then 0xA0 else 0x80, if n = 13 then 0x9F else 0xBF⟩) ∨
    ∃ n, n < 5 ∧ byte = 0xF0 + n ∧
      pending = ⟨n, 1, 3, if n = 0 then 0x90 else 0x80, if n = 4 then 0x8F else 0xBF⟩ := by
  rw [lead?] at h
  by_cases h1 : byte < 0xC2
  · rw [if_pos h1] at h
    cases h
  rw [if_neg h1] at h
  by_cases h2 : byte < 0xE0
  · rw [if_pos h2] at h
    exact .inl ⟨byte - 0xC0, by omega, by omega, by omega, (Option.some.inj h).symm⟩
  rw [if_neg h2] at h
  by_cases h3 : byte < 0xF0
  · rw [if_pos h3] at h
    refine .inr (.inl ⟨byte - 0xE0, by omega, by omega, ?_⟩)
    simp only [← Option.some.inj h, show byte - 0xE0 = 0 ↔ byte = 0xE0 by omega,
      show byte - 0xE0 = 13 ↔ byte = 0xED by omega]
  rw [if_neg h3] at h
  by_cases h4 : byte < 0xF5
  · rw [if_pos h4] at h
    refine .inr (.inr ⟨byte - 0xF0, by omega, by omega, ?_⟩)
    simp only [← Option.some.inj h, show byte - 0xF0 = 0 ↔ byte = 0xF0 by omega,
      show byte - 0xF0 = 4 ↔ byte = 0xF4 by omega]
  · rw [if_neg h4] at h
    cases h

-- The byte that goes on with a character under way.
theorem exists_of_scan_pending {start value seen missing low high : Nat} {bytes : Bytes}
    {chars : List Char} (h : scan start (some ⟨value, seen, missing, low, high⟩) bytes = .ok chars)
    (hlow : 0x80 ≤ low) (hhigh : high ≤ 0xBF) :
    ∃ n rest, n < 64 ∧ low ≤ 0x80 + n ∧ 0x80 + n ≤ high ∧
      bytes = UInt8.ofNat (0x80 + n) :: rest := by
  cases bytes with
  | nil => cases h
  | cons byte rest =>
    by_cases hrange : low ≤ byte.toNat ∧ byte.toNat ≤ high
    · have hbyte : 0x80 + (byte.toNat - 0x80) = byte.toNat := by omega
      refine ⟨byte.toNat - 0x80, rest, by omega, by omega, by omega, ?_⟩
      rw [hbyte, UInt8.ofNat_toNat]
    · rw [scan, if_neg hrange] at h
      cases h

theorem exists_of_map_eq_ok {c : Char} {chars : List Char} {result : Except Fault (List Char)}
    (h : (c :: ·) <$> result = .ok chars) : ∃ tail, chars = c :: tail ∧ result = .ok tail := by
  cases result with
  | ok tail => exact ⟨tail, (Except.ok.inj h).symm, rfl⟩
  | error fault => cases h

-- The first character that is read takes its own bytes from the front.
theorem exists_of_scan_cons {start : Nat} {byte : UInt8} {bytes : Bytes} {chars : List Char}
    (h : scan start none (byte :: bytes) = .ok chars) :
    ∃ c rest tail next, byte :: bytes = encodeChar c ++ rest ∧ chars = c :: tail ∧
      scan next none rest = .ok tail := by
  have hbyte : UInt8.ofNat byte.toNat = byte := UInt8.ofNat_toNat
  by_cases hascii : byte.toNat < 0x80
  · rw [scan, if_pos hascii] at h
    obtain ⟨tail, rfl, htail⟩ := exists_of_map_eq_ok h
    refine ⟨_, bytes, tail, _, ?_, rfl, htail⟩
    rw [encodeChar_one hascii, hbyte]
    rfl
  rw [scan, if_neg hascii] at h
  cases hlead : lead? byte.toNat with
  | none =>
    rw [hlead] at h
    cases h
  | some pending =>
    simp only [hlead] at h
    obtain ⟨n, hlow, hhigh, hn, rfl⟩ | ⟨n, hhigh, hn, rfl⟩ | ⟨n, hhigh, hn, rfl⟩ :=
      lead?_cases hlead <;> rw [hn] at hbyte
    · obtain ⟨d, rest, hd, hdlow, hdhigh, rfl⟩ := exists_of_scan_pending h (by omega) (by omega)
      rw [scan_last hd hdlow hdhigh] at h
      obtain ⟨tail, rfl, htail⟩ := exists_of_map_eq_ok h
      refine ⟨_, rest, tail, _, ?_, rfl, htail⟩
      rw [encodeChar_two hlow hhigh hd, hbyte]
      rfl
    · obtain ⟨d, rest, hd, hdlow, hdhigh, rfl⟩ :=
        exists_of_scan_pending h (by split <;> omega) (by split <;> omega)
      rw [scan_middle hd hdlow hdhigh] at h
      obtain ⟨e, rest, he, helow, hehigh, rfl⟩ := exists_of_scan_pending h (by omega) (by omega)
      rw [scan_last he helow hehigh] at h
      obtain ⟨tail, rfl, htail⟩ := exists_of_map_eq_ok h
      refine ⟨_, rest, tail, _, ?_, rfl, htail⟩
      rw [encodeChar_three hhigh hd he (by grind) (by grind), hbyte]
      rfl
    · obtain ⟨d, rest, hd, hdlow, hdhigh, rfl⟩ :=
        exists_of_scan_pending h (by split <;> omega) (by split <;> omega)
      rw [scan_middle hd hdlow hdhigh] at h
      obtain ⟨e, rest, he, helow, hehigh, rfl⟩ := exists_of_scan_pending h (by omega) (by omega)
      rw [scan_middle he helow hehigh] at h
      obtain ⟨f, rest, hf, hflow, hfhigh, rfl⟩ := exists_of_scan_pending h (by omega) (by omega)
      rw [scan_last hf hflow hfhigh] at h
      obtain ⟨tail, rfl, htail⟩ := exists_of_map_eq_ok h
      refine ⟨_, rest, tail, _, ?_, rfl, htail⟩
      rw [encodeChar_four hhigh hd he hf (by grind) (by grind), hbyte]
      rfl

theorem eq_flatMap_of_scan {start : Nat} {bytes : Bytes} {chars : List Char}
    (h : scan start none bytes = .ok chars) : bytes = chars.flatMap encodeChar := by
  induction chars generalizing start bytes with
  | nil =>
    cases bytes with
    | nil => rfl
    | cons byte bytes =>
      obtain ⟨_, _, _, _, _, hchars, _⟩ := exists_of_scan_cons h
      cases hchars
  | cons c chars ih =>
    cases bytes with
    | nil => cases h
    | cons byte bytes =>
      obtain ⟨_, rest, _, next, hbytes, hchars, hrest⟩ := exists_of_scan_cons h
      cases hchars
      rw [hbytes, ih hrest, List.flatMap_cons]

theorem encode_of_decode {bytes : Bytes} {s : String} (h : decode bytes = .ok s) :
    bytes = encode s := by
  rw [decode] at h
  cases hscan : scan 0 none bytes with
  | ok chars =>
    rw [hscan] at h
    cases h
    rw [encode, String.toList_ofList]
    exact eq_flatMap_of_scan hscan
  | error fault =>
    rw [hscan] at h
    cases h

end Inverse

end Conductor.Utf8
