import DirectCall.Text.ModifiedUtf8
import Mathlib.Tactic.SplitIfs

/-!
# Modified UTF-8 spells every text

Decoding takes back what encoding does: character by character for UTF-16 units
(`Utf16.decode_of_encode`), unit by unit for bytes (`ModifiedUtf8.decode_of_encode`).
-/

namespace DirectCall.Text

namespace Utf16

theorem isLow_iff (u : UInt16) : isLow u = true ↔ 0xDC00 ≤ u.toNat ∧ u.toNat < 0xE000 := by
  simp [isLow, UInt16.le_iff_toNat_le, UInt16.lt_iff_toNat_lt]

theorem isHigh_iff (u : UInt16) : isHigh u = true ↔ 0xD800 ≤ u.toNat ∧ u.toNat < 0xDC00 := by
  simp [isHigh, UInt16.le_iff_toNat_le, UInt16.lt_iff_toNat_lt]

theorem toNat_toUInt16 {n : Nat} (h : n < 0x10000) : n.toUInt16.toNat = n := by
  rw [Nat.toUInt16_eq, UInt16.toNat_ofNat']
  exact Nat.mod_eq_of_lt h

/-- A character is no surrogate. -/
theorem toNat_bounds (c : Char) :
    c.toNat < 0xD800 ∨ 0xE000 ≤ c.toNat ∧ c.toNat < 0x110000 := by
  rcases c.valid with h | ⟨h, h'⟩
  · exact .inl h
  · exact .inr ⟨h, h'⟩

theorem decodeFrom_encodeChar (read : List Char) (c : Char) (rest : List UInt16) :
    decodeFrom read (encodeChar c ++ rest) = decodeFrom (c :: read) rest := by
  have hbounds := toNat_bounds c
  unfold encodeChar
  dsimp only
  split_ifs with hsmall
  · have hunit := toNat_toUInt16 hsmall
    have hlow : isLow c.toNat.toUInt16 = false := by
      rw [Bool.eq_false_iff, ne_eq, isLow_iff, hunit]
      omega
    have hhigh : isHigh c.toNat.toUInt16 = false := by
      rw [Bool.eq_false_iff, ne_eq, isHigh_iff, hunit]
      omega
    rw [List.cons_append, List.nil_append, decodeFrom.eq_def]
    simp only [hlow, hhigh, Bool.false_eq_true, if_false, hunit, Char.ofNat_toNat]
  · have hhighUnit := toNat_toUInt16 (show 0xD800 + (c.toNat - 0x10000) / 0x400 < 0x10000 by omega)
    have hlowUnit := toNat_toUInt16 (show 0xDC00 + (c.toNat - 0x10000) % 0x400 < 0x10000 by omega)
    have hnotLow : isLow (0xD800 + (c.toNat - 0x10000) / 0x400).toUInt16 = false := by
      rw [Bool.eq_false_iff, ne_eq, isLow_iff, hhighUnit]
      omega
    have hhigh : isHigh (0xD800 + (c.toNat - 0x10000) / 0x400).toUInt16 = true := by
      rw [isHigh_iff, hhighUnit]
      omega
    have hlow : isLow (0xDC00 + (c.toNat - 0x10000) % 0x400).toUInt16 = true := by
      rw [isLow_iff, hlowUnit]
      omega
    have hpair : pair (0xD800 + (c.toNat - 0x10000) / 0x400).toUInt16
        (0xDC00 + (c.toNat - 0x10000) % 0x400).toUInt16 = c := by
      rw [pair, hhighUnit, hlowUnit, show 0x10000 + (0xD800 + (c.toNat - 0x10000) / 0x400 - 0xD800) * 0x400 +
        (0xDC00 + (c.toNat - 0x10000) % 0x400 - 0xDC00) = c.toNat by omega, Char.ofNat_toNat]
    rw [List.cons_append, List.cons_append, List.nil_append, decodeFrom.eq_def]
    simp only [hnotLow, hhigh, hlow, hpair, Bool.false_eq_true, if_false, if_true]

theorem decodeFrom_encode (read text : List Char) :
    decodeFrom read (encode text) = some (read.reverse ++ text) := by
  induction text generalizing read with
  | nil => simp [encode, decodeFrom]
  | cons c rest ih =>
    rw [encode, List.flatMap_cons, decodeFrom_encodeChar, ← encode, ih]
    simp

theorem decode_of_encode (text : List Char) : decode (encode text) = some text :=
  decodeFrom_encode [] text

end Utf16

namespace ModifiedUtf8

theorem toNat_toUInt8 {n : Nat} (h : n < 256) : n.toUInt8.toNat = n := by
  rw [Nat.toUInt8_eq, UInt8.toNat_ofNat']
  exact Nat.mod_eq_of_lt h

theorem toUInt8_lt {n : Nat} (h : n < 256) (b : UInt8) : n.toUInt8 < b ↔ n < b.toNat := by
  rw [UInt8.lt_iff_toNat_lt, toNat_toUInt8 h]

theorem le_toUInt8 {n : Nat} (h : n < 256) (b : UInt8) : b ≤ n.toUInt8 ↔ b.toNat ≤ n := by
  rw [UInt8.le_iff_toNat_le, toNat_toUInt8 h]

/-- A byte lies in the range of a lead. -/
theorem isBetween_toUInt8 {n : Nat} (h : n < 256) (low high : UInt8) :
    (low ≤ n.toUInt8 && n.toUInt8 < high) = decide (low.toNat ≤ n ∧ n < high.toNat) := by
  rw [Bool.eq_iff_iff, Bool.and_eq_true, decide_eq_true_iff, decide_eq_true_iff, decide_eq_true_iff,
    le_toUInt8 h, toUInt8_lt h]

/-- A byte that follows a lead byte. -/
theorem isContinuation_toUInt8 {n : Nat} (h : n < 64) : isContinuation (0x80 + n).toUInt8 = true := by
  rw [isContinuation, isBetween_toUInt8 (by omega), decide_eq_true_iff]
  exact ⟨Nat.le_add_right _ _, Nat.add_lt_add_left h 0x80⟩

theorem payload_toUInt8 {lead n bound : Nat} (hlead : lead % bound = 0) (hn : n < bound)
    (hbyte : lead + n < 256) : payload (lead + n).toUInt8 bound = n := by
  rw [payload, toNat_toUInt8 hbyte, Nat.add_mod, hlead, Nat.zero_add, Nat.mod_mod,
    Nat.mod_eq_of_lt hn]

/-! ### Groups -/

theorem unitsFrom_single (read : List UInt16) {n : Nat} (hpos : 1 ≤ n) (hn : n ≤ 0x7F) (rest : List UInt8) :
    unitsFrom read (n.toUInt8 :: rest) = unitsFrom (n.toUInt16 :: read) rest := by
  have hbyte : n.toUInt8.toNat = n := toNat_toUInt8 (by omega)
  have hsmall : n.toUInt8 < 0x80 := (toUInt8_lt (by omega) 0x80).mpr (Nat.lt_succ_of_le hn)
  have hzero : n.toUInt8 ≠ 0 := by
    rw [ne_eq, ← UInt8.toNat_inj, hbyte]
    exact Nat.ne_of_gt hpos
  have hunit : n.toUInt8.toUInt16 = n.toUInt16 := by
    rw [← UInt16.toNat_inj, UInt8.toNat_toUInt16, hbyte, Nat.toUInt16_eq, UInt16.toNat_ofNat']
    exact (Nat.mod_eq_of_lt (by omega)).symm
  rw [unitsFrom.eq_def]
  simp only [hsmall, if_true, hzero, if_false, hunit]

theorem unitsFrom_pair (read : List UInt16) {high low : Nat} (hhigh : high < 32) (hlow : low < 64)
    (rest : List UInt8) :
    unitsFrom read ((0xC0 + high).toUInt8 :: (0x80 + low).toUInt8 :: rest) =
      unitsFrom ((high * 64 + low).toUInt16 :: read) rest := by
  have hbyte : 0xC0 + high < 256 := by omega
  have hlead : ¬ (0xC0 + high).toUInt8 < 0x80 := by
    rw [toUInt8_lt hbyte]
    exact Nat.not_lt.mpr (Nat.le_add_right_of_le (by decide))
  have hpair : (0xC0 ≤ (0xC0 + high).toUInt8 && (0xC0 + high).toUInt8 < 0xE0) = true := by
    rw [isBetween_toUInt8 hbyte, decide_eq_true_iff]
    exact ⟨Nat.le_add_right _ _, Nat.add_lt_add_left hhigh 0xC0⟩
  rw [unitsFrom.eq_def]
  simp only [hlead, if_false, hpair, if_true, isContinuation_toUInt8 hlow,
    payload_toUInt8 (show 0xC0 % 32 = 0 by decide) hhigh hbyte,
    payload_toUInt8 (show 0x80 % 64 = 0 by decide) hlow (by omega)]

theorem unitsFrom_triple (read : List UInt16) {high middle low : Nat} (hhigh : high < 16)
    (hmiddle : middle < 64) (hlow : low < 64) (rest : List UInt8) :
    unitsFrom read ((0xE0 + high).toUInt8 :: (0x80 + middle).toUInt8 :: (0x80 + low).toUInt8 :: rest) =
      unitsFrom ((high * 4096 + middle * 64 + low).toUInt16 :: read) rest := by
  have hbyte : 0xE0 + high < 256 := by omega
  have hlead : ¬ (0xE0 + high).toUInt8 < 0x80 := by
    rw [toUInt8_lt hbyte]
    exact Nat.not_lt.mpr (Nat.le_add_right_of_le (by decide))
  have hpair : (0xC0 ≤ (0xE0 + high).toUInt8 && (0xE0 + high).toUInt8 < 0xE0) = false := by
    rw [isBetween_toUInt8 hbyte, decide_eq_false_iff_not]
    exact fun h => absurd h.2 (Nat.not_lt.mpr (Nat.le_add_right _ _))
  have htriple : (0xE0 ≤ (0xE0 + high).toUInt8 && (0xE0 + high).toUInt8 < 0xF0) = true := by
    rw [isBetween_toUInt8 hbyte, decide_eq_true_iff]
    exact ⟨Nat.le_add_right _ _, Nat.add_lt_add_left hhigh 0xE0⟩
  rw [unitsFrom.eq_def]
  simp only [hlead, if_false, hpair, htriple, Bool.false_eq_true, if_true, isContinuation_toUInt8 hmiddle,
    isContinuation_toUInt8 hlow, Bool.and_self, payload_toUInt8 (show 0xE0 % 16 = 0 by decide) hhigh hbyte,
    payload_toUInt8 (show 0x80 % 64 = 0 by decide) hmiddle (by omega),
    payload_toUInt8 (show 0x80 % 64 = 0 by decide) hlow (by omega)]

/-- A unit is read from its bytes. -/
theorem unitsFrom_encodeUnit (read : List UInt16) (u : UInt16) (rest : List UInt8) :
    unitsFrom read (encodeUnit u ++ rest) = unitsFrom (u :: read) rest := by
  have hu := u.toNat_lt
  have hlow : u.toNat % 64 < 64 := Nat.mod_lt _ (by decide)
  have hmiddle : u.toNat / 64 % 64 < 64 := Nat.mod_lt _ (by decide)
  have hunit : u.toNat.toUInt16 = u := by rw [Nat.toUInt16_eq, UInt16.ofNat_toNat]
  unfold encodeUnit
  dsimp only
  split_ifs with hone htwo
  · rw [List.singleton_append, unitsFrom_single read hone.1 hone.2, hunit]
  · rw [List.cons_append, List.singleton_append, unitsFrom_pair read (by omega) hlow, Nat.div_add_mod', hunit]
  · rw [List.cons_append, List.cons_append, List.singleton_append,
      unitsFrom_triple read (by omega) hmiddle hlow,
      show u.toNat / 4096 * 4096 + u.toNat / 64 % 64 * 64 + u.toNat % 64 = u.toNat by omega, hunit]

theorem unitsFrom_flatMap (read us : List UInt16) :
    unitsFrom read (us.flatMap encodeUnit) = .ok (read.reverse ++ us) := by
  induction us generalizing read with
  | nil => simp [unitsFrom]
  | cons u rest ih =>
    rw [List.flatMap_cons, unitsFrom_encodeUnit, ih]
    simp

/-- Every text is decoded from its encoding. -/
theorem decode_of_encode (text : String) : decode (encode text) = .ok text := by
  have hunits : units (encode text) = .ok (Utf16.encode text.toList) := unitsFrom_flatMap [] _
  rw [decode, hunits]
  simp only [Utf16.decode_of_encode, String.ofList_toList]

end ModifiedUtf8

end DirectCall.Text
