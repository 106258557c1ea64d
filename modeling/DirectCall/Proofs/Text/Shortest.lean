import DirectCall.Proofs.Text.ModifiedUtf8
import Mathlib.Data.List.Chain

/-!
# Texts in their shortest spelling

Decoding accepts groups of bytes that are longer than they need be, and encoding never writes one. So a
text that was decoded is encoded as the same bytes exactly if these are its shortest spelling, which
shows in the bytes themselves (`ModifiedUtf8.IsShortest`, `encode_decode`).
-/

namespace DirectCall.Text

/-- What is written is at most as long as what was read, and the same under the condition only. -/
def Shortens (written taken : List UInt8) (condition : Prop) : Prop :=
  written.length ≤ taken.length ∧ (written = taken ↔ condition)

theorem Shortens.refl (taken : List UInt8) : Shortens taken taken True :=
  ⟨Nat.le_refl _, by simp⟩

theorem Shortens.congr {written taken : List UInt8} {p q : Prop} (h : Shortens written taken p)
    (hpq : p ↔ q) : Shortens written taken q :=
  ⟨h.1, h.2.trans hpq⟩

/-- Two parts are the same only if each of them is, since none can make up for the other. -/
theorem Shortens.append {written written' taken taken' : List UInt8} {p p' : Prop}
    (h : Shortens written taken p) (h' : Shortens written' taken' p') :
    Shortens (written ++ written') (taken ++ taken') (p ∧ p') := by
  obtain ⟨hlength, hsame⟩ := h
  obtain ⟨hlength', hsame'⟩ := h'
  refine ⟨by simp only [List.length_append]; omega, ?_⟩
  rw [← hsame, ← hsame']
  constructor
  · intro heq
    have htotal := congrArg List.length heq
    simp only [List.length_append] at htotal
    exact List.append_inj heq (by omega)
  · rintro ⟨rfl, rfl⟩
    rfl

namespace Utf16

theorem toNat_ofNat {n : Nat} (h : n < 0xD800 ∨ 0xDFFF < n ∧ n < 0x110000) : (Char.ofNat n).toNat = n := by
  have hvalid : n.isValidChar := h
  rw [Char.ofNat, dif_pos hvalid]
  rfl

theorem encodeChar_ofNat (u : UInt16) (hlow : isLow u = false) (hhigh : isHigh u = false) :
    encodeChar (Char.ofNat u.toNat) = [u] := by
  have hu := u.toNat_lt
  rw [Bool.eq_false_iff, ne_eq, isLow_iff] at hlow
  rw [Bool.eq_false_iff, ne_eq, isHigh_iff] at hhigh
  have hvalue : (Char.ofNat u.toNat).toNat = u.toNat := toNat_ofNat (by omega)
  rw [encodeChar, hvalue]
  dsimp only
  rw [if_pos (by omega), Nat.toUInt16_eq, UInt16.ofNat_toNat]

theorem encodeChar_pair {high low : UInt16} (hhigh : isHigh high = true) (hlow : isLow low = true) :
    encodeChar (pair high low) = [high, low] := by
  rw [isHigh_iff] at hhigh
  rw [isLow_iff] at hlow
  have hvalue : (pair high low).toNat =
      0x10000 + (high.toNat - 0xD800) * 0x400 + (low.toNat - 0xDC00) := by
    rw [pair, toNat_ofNat (by omega)]
  have hunits : 0xD800 + ((pair high low).toNat - 0x10000) / 0x400 = high.toNat ∧
      0xDC00 + ((pair high low).toNat - 0x10000) % 0x400 = low.toNat := by
    rw [hvalue]
    omega
  rw [encodeChar]
  dsimp only
  rw [if_neg (by omega), hunits.1, hunits.2]
  simp only [Nat.toUInt16_eq, UInt16.ofNat_toNat]

theorem encode_decodeFrom {read text : List Char} {us : List UInt16}
    (h : decodeFrom read us = some text) : ∃ new, text = read.reverse ++ new ∧ encode new = us := by
  fun_induction decodeFrom read us with
  | case1 read =>
    cases h
    exact ⟨[], by simp, rfl⟩
  | case2 => cases h
  | case3 => cases h
  | case4 read high hnotLow hhigh low rest hlow ih =>
    obtain ⟨new, rfl, hnew⟩ := ih h
    refine ⟨pair high low :: new, by simp, ?_⟩
    rw [encode, List.flatMap_cons, ← encode, hnew, encodeChar_pair hhigh hlow]
    rfl
  | case5 => cases h
  | case6 read u rest hlow hhigh ih =>
    obtain ⟨new, rfl, hnew⟩ := ih h
    refine ⟨Char.ofNat u.toNat :: new, by simp, ?_⟩
    rw [encode, List.flatMap_cons, ← encode, hnew,
      encodeChar_ofNat u (Bool.eq_false_iff.mpr hlow) (Bool.eq_false_iff.mpr hhigh)]
    rfl

/-- The units of a text that was decoded are spelt again. -/
theorem encode_of_decode {us : List UInt16} {text : List Char} (h : decode us = some text) :
    encode text = us := by
  obtain ⟨new, rfl, hnew⟩ := encode_decodeFrom h
  exact hnew

end Utf16

namespace ModifiedUtf8

/-- Two bytes that may follow one another in a shortest spelling. In two bytes `0xC1` leads to no unit
that needs them and `0xC0` to zero only; in three, `0xE0` leads to the units from `0x800` on. -/
def MayPrecede (a b : UInt8) : Prop := a ≠ 0xC1 ∧ (a = 0xC0 → b = 0x80) ∧ (a = 0xE0 → 0xA0 ≤ b)

instance (a b : UInt8) : Decidable (MayPrecede a b) := inferInstanceAs (Decidable (_ ∧ _))

/-- No group of bytes is longer than its unit needs. -/
def IsShortest (bytes : List UInt8) : Prop := bytes.IsChain MayPrecede

instance (bytes : List UInt8) : Decidable (IsShortest bytes) :=
  inferInstanceAs (Decidable (bytes.IsChain MayPrecede))

/-- A byte that is no lead of a group may precede any other. -/
theorem isShortest_cons {a : UInt8} (h : a < 0xC0) (rest : List UInt8) :
    IsShortest (a :: rest) ↔ IsShortest rest := by
  have hfree : ∀ b, MayPrecede a b := by
    intro b
    rw [UInt8.lt_iff_toNat_lt] at h
    have hne : ∀ lead : UInt8, 0xC0 ≤ lead.toNat → a ≠ lead := by
      intro lead hlead heq
      subst heq
      exact absurd h (Nat.not_lt.mpr hlead)
    exact ⟨hne _ (by decide), fun heq => absurd heq (hne _ (by decide)),
      fun heq => absurd heq (hne _ (by decide))⟩
  unfold IsShortest
  cases rest with
  | nil => simp
  | cons b rest =>
    rw [List.isChain_cons_cons]
    exact and_iff_right (hfree b)

theorem isContinuation_iff (b : UInt8) : isContinuation b = true ↔ 0x80 ≤ b.toNat ∧ b.toNat < 0xC0 := by
  simp [isContinuation, UInt8.le_iff_toNat_le, UInt8.lt_iff_toNat_lt]

theorem isShortest_continuation {b : UInt8} (h : isContinuation b = true) (rest : List UInt8) :
    IsShortest (b :: rest) ↔ IsShortest rest := by
  refine isShortest_cons ?_ rest
  rw [UInt8.lt_iff_toNat_lt]
  exact ((isContinuation_iff b).mp h).2

theorem mayPrecede_iff (a b : UInt8) :
    MayPrecede a b ↔ a.toNat ≠ 0xC1 ∧ (a.toNat = 0xC0 → b.toNat = 0x80) ∧ (a.toNat = 0xE0 → 0xA0 ≤ b.toNat) := by
  simp only [MayPrecede, ne_eq, ← UInt8.toNat_inj, UInt8.le_iff_toNat_le]
  rfl

/-! ### Groups -/

theorem toUInt8_eq {n : Nat} {b : UInt8} (h : n = b.toNat) : n.toUInt8 = b := by
  rw [h, Nat.toUInt8_eq, UInt8.ofNat_toNat]

theorem shortens_single {a : UInt8} (hzero : a ≠ 0) (hsmall : a < 0x80) :
    Shortens (encodeUnit a.toUInt16) [a] True := by
  have hpos : a.toNat ≠ 0 := fun h => hzero (UInt8.toNat_inj.mp h)
  rw [UInt8.lt_iff_toNat_lt] at hsmall
  have hbound : a.toNat < 0x80 := hsmall
  have hencoded : encodeUnit a.toUInt16 = [a] := by
    rw [encodeUnit]
    simp only [UInt8.toNat_toUInt16]
    rw [if_pos (by omega), toUInt8_eq rfl]
  rw [hencoded]
  exact Shortens.refl [a]

theorem shortens_pair {a b : UInt8} (ha : 0xC0 ≤ a.toNat ∧ a.toNat < 0xE0) (hb : isContinuation b = true) :
    Shortens (encodeUnit (payload a 32 * 64 + payload b 64).toUInt16) [a, b] (MayPrecede a b) := by
  rw [isContinuation_iff] at hb
  have hunit : (payload a 32 * 64 + payload b 64).toUInt16.toNat =
      (a.toNat - 0xC0) * 64 + (b.toNat - 0x80) := by
    rw [Nat.toUInt16_eq, UInt16.toNat_ofNat', payload, payload, Nat.mod_eq_of_lt (by omega)]
    omega
  rw [mayPrecede_iff, encodeUnit, hunit]
  split_ifs with hone htwo
  · refine ⟨by simp, ⟨fun h => by simp at h, fun h => ?_⟩⟩
    omega
  · rw [toUInt8_eq (show 0xC0 + ((a.toNat - 0xC0) * 64 + (b.toNat - 0x80)) / 64 = a.toNat by omega),
      toUInt8_eq (show 0x80 + ((a.toNat - 0xC0) * 64 + (b.toNat - 0x80)) % 64 = b.toNat by omega)]
    exact ⟨Nat.le_refl _, ⟨fun _ => by omega, fun _ => rfl⟩⟩
  · omega

theorem shortens_triple {a b c : UInt8} (ha : 0xE0 ≤ a.toNat ∧ a.toNat < 0xF0)
    (hb : isContinuation b = true) (hc : isContinuation c = true) :
    Shortens (encodeUnit (payload a 16 * 4096 + payload b 64 * 64 + payload c 64).toUInt16) [a, b, c]
      (MayPrecede a b) := by
  rw [isContinuation_iff] at hb hc
  have hunit : (payload a 16 * 4096 + payload b 64 * 64 + payload c 64).toUInt16.toNat =
      (a.toNat - 0xE0) * 4096 + (b.toNat - 0x80) * 64 + (c.toNat - 0x80) := by
    rw [Nat.toUInt16_eq, UInt16.toNat_ofNat', payload, payload, payload, Nat.mod_eq_of_lt (by omega)]
    omega
  rw [mayPrecede_iff, encodeUnit, hunit]
  generalize hn : (a.toNat - 0xE0) * 4096 + (b.toNat - 0x80) * 64 + (c.toNat - 0x80) = n
  split_ifs with hone htwo
  · refine ⟨by simp, ⟨fun h => by simp at h, fun h => ?_⟩⟩
    omega
  · refine ⟨by simp, ⟨fun h => by simp at h, fun h => ?_⟩⟩
    omega
  · rw [toUInt8_eq (show 0xE0 + n / 4096 = a.toNat by omega),
      toUInt8_eq (show 0x80 + n / 64 % 64 = b.toNat by omega),
      toUInt8_eq (show 0x80 + n % 64 = c.toNat by omega)]
    exact ⟨Nat.le_refl _, ⟨fun _ => by omega, fun _ => rfl⟩⟩

/-! ### Texts -/

theorem shortens_unitsFrom {read us : List UInt16} {bytes : List UInt8}
    (h : unitsFrom read bytes = .ok us) :
    ∃ new, us = read.reverse ++ new ∧ Shortens (new.flatMap encodeUnit) bytes (IsShortest bytes) := by
  fun_induction unitsFrom read bytes with
  | case1 read =>
    cases h
    exact ⟨[], by simp, (Shortens.refl []).congr (by simp [IsShortest])⟩
  | case2 => cases h
  | case3 read a rest hsmall hzero ih =>
    obtain ⟨new, rfl, hnew⟩ := ih h
    refine ⟨a.toUInt16 :: new, by simp, ((shortens_single hzero hsmall).append hnew).congr ?_⟩
    rw [true_and]
    exact (isShortest_cons (Nat.lt_trans hsmall (by decide)) rest).symm
  | case4 read a hsmall hlead b rest hb ih =>
    obtain ⟨new, rfl, hnew⟩ := ih h
    simp only [Bool.and_eq_true, decide_eq_true_eq, UInt8.le_iff_toNat_le, UInt8.lt_iff_toNat_lt] at hlead
    refine ⟨(payload a 32 * 64 + payload b 64).toUInt16 :: new, by simp,
      ((shortens_pair hlead hb).append hnew).congr ?_⟩
    rw [IsShortest, IsShortest, List.isChain_cons_cons]
    exact and_congr_right fun _ => (isShortest_continuation hb rest).symm
  | case5 => cases h
  | case6 => cases h
  | case7 read a hsmall hpair hlead b c rest hbc ih =>
    obtain ⟨new, rfl, hnew⟩ := ih h
    simp only [Bool.and_eq_true, decide_eq_true_eq, UInt8.le_iff_toNat_le, UInt8.lt_iff_toNat_lt] at hlead
    rw [Bool.and_eq_true] at hbc
    refine ⟨(payload a 16 * 4096 + payload b 64 * 64 + payload c 64).toUInt16 :: new, by simp,
      ((shortens_triple hlead hbc.1 hbc.2).append hnew).congr ?_⟩
    rw [IsShortest, IsShortest, List.isChain_cons_cons]
    refine and_congr_right fun _ => ?_
    rw [← IsShortest, ← IsShortest, isShortest_continuation hbc.1, isShortest_continuation hbc.2]
  | case8 => cases h
  | case9 => cases h
  | case10 => cases h

/-- A text that was decoded is encoded as the same bytes exactly if these are its shortest spelling;
no other spelling is shorter. -/
theorem encode_decode {bytes : List UInt8} {text : String} (h : decode bytes = .ok text) :
    Shortens (encode text) bytes (IsShortest bytes) := by
  unfold decode at h
  split at h
  · cases h
  · rename_i us hunits
    split at h
    · rename_i chars hchars
      cases h
      obtain ⟨new, hus, hnew⟩ := shortens_unitsFrom hunits
      rw [List.reverse_nil, List.nil_append] at hus
      subst hus
      rw [encode, String.toList_ofList, Utf16.encode_of_decode hchars]
      exact hnew
    · cases h

end ModifiedUtf8

end DirectCall.Text
