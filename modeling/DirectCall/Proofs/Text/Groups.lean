import DirectCall.Proofs.Text.Shortest

/-!
# Which bytes spell which text

Modified UTF-8 without its reader: groups of one to three bytes denote units (`ModifiedUtf8.Groups`), and
units spell a text (`Utf16.Spells`). Exactly the bytes that are such groups are decoded, to the text that
their units spell; all others are refused for a cause that shows in them (`ModifiedUtf8.Refused`). A reader
that goes by offsets, and could run past the end, comes to the same answers (`ModifiedUtf8.decodeAt_eq`).
-/

namespace DirectCall.Text

namespace Utf16

/-- A unit is the character of its number, or a high and a low surrogate are one character together. -/
inductive Spells : List UInt16 → List Char → Prop where
  | nil : Spells [] []
  | unit {u : UInt16} {c : Char} {us : List UInt16} {text : List Char} (hc : c.toNat = u.toNat)
      (h : Spells us text) : Spells (u :: us) (c :: text)
  | pair {high low : UInt16} {c : Char} {us : List UInt16} {text : List Char}
      (hhigh : 0xD800 ≤ high.toNat ∧ high.toNat < 0xDC00) (hlow : 0xDC00 ≤ low.toNat ∧ low.toNat < 0xE000)
      (hc : c.toNat = 0x10000 + (high.toNat - 0xD800) * 0x400 + (low.toNat - 0xDC00))
      (h : Spells us text) : Spells (high :: low :: us) (c :: text)

theorem encode_cons (c : Char) (text : List Char) : encode (c :: text) = encodeChar c ++ encode text := rfl

theorem encodeChar_unit {u : UInt16} {c : Char} (hc : c.toNat = u.toNat) : encodeChar c = [u] := by
  have hu := u.toNat_lt
  rw [encodeChar, hc]
  dsimp only
  rw [if_pos (by omega), Nat.toUInt16_eq, UInt16.ofNat_toNat]

theorem eq_pair {high low : UInt16} {c : Char}
    (hc : c.toNat = 0x10000 + (high.toNat - 0xD800) * 0x400 + (low.toNat - 0xDC00)) : c = pair high low := by
  rw [pair, ← hc, Char.ofNat_toNat]

/-- A text is spelt by its encoding and by nothing else. -/
theorem spells_iff {us : List UInt16} {text : List Char} : Spells us text ↔ encode text = us := by
  constructor
  · intro h
    induction h with
    | nil => rfl
    | unit hc _ ih => rw [encode_cons, encodeChar_unit hc, ih, List.singleton_append]
    | pair hhigh hlow hc _ ih =>
      rw [encode_cons, eq_pair hc, encodeChar_pair ((isHigh_iff _).mpr hhigh) ((isLow_iff _).mpr hlow), ih]
      rfl
  · rintro rfl
    induction text with
    | nil => exact .nil
    | cons c text ih =>
      have hbounds := toNat_bounds c
      rw [encode_cons, encodeChar]
      dsimp only
      split_ifs with hsmall
      · exact .unit (toNat_toUInt16 hsmall).symm ih
      · have hhigh := toNat_toUInt16 (show 0xD800 + (c.toNat - 0x10000) / 0x400 < 0x10000 by omega)
        have hlow := toNat_toUInt16 (show 0xDC00 + (c.toNat - 0x10000) % 0x400 < 0x10000 by omega)
        refine .pair ?_ ?_ ?_ ih
        · omega
        · omega
        · omega

theorem decode_eq_some_iff {us : List UInt16} {text : List Char} : decode us = some text ↔ Spells us text := by
  rw [spells_iff]
  constructor
  · exact encode_of_decode
  · rintro rfl
    exact decode_of_encode text

end Utf16

namespace ModifiedUtf8

/-! ## Groups -/

/-- A byte `10xxxxxx`, which only stands behind a lead byte. -/
def Continues (b : UInt8) : Prop := 0x80 ≤ b.toNat ∧ b.toNat < 0xC0

/-- The units that one, two and three bytes denote. -/
inductive Group : List UInt8 → UInt16 → Prop where
  | single {a : UInt8} {u : UInt16} (ha : 0 < a.toNat ∧ a.toNat < 0x80) (hu : u.toNat = a.toNat) : Group [a] u
  | pair {a b : UInt8} {u : UInt16} (ha : 0xC0 ≤ a.toNat ∧ a.toNat < 0xE0) (hb : Continues b)
      (hu : u.toNat = (a.toNat - 0xC0) * 64 + (b.toNat - 0x80)) : Group [a, b] u
  | triple {a b c : UInt8} {u : UInt16} (ha : 0xE0 ≤ a.toNat ∧ a.toNat < 0xF0) (hb : Continues b)
      (hc : Continues c)
      (hu : u.toNat = (a.toNat - 0xE0) * 4096 + (b.toNat - 0x80) * 64 + (c.toNat - 0x80)) : Group [a, b, c] u

/-- One group after another, and the units they denote. -/
inductive Groups : List UInt8 → List UInt16 → Prop where
  | nil : Groups [] []
  | cons {group rest : List UInt8} {u : UInt16} {us : List UInt16} (h : Group group u) (hrest : Groups rest us) :
      Groups (group ++ rest) (u :: us)

/-- Why no group starts where the bytes do. What is missing behind a lead byte may be missing because the
bytes end. -/
inductive Stops : List UInt8 → DecodeError → Prop where
  | rawNul {rest : List UInt8} : Stops (0 :: rest) .rawNul
  | badLead {b : UInt8} {rest : List UInt8} (hb : Continues b ∨ 0xF0 ≤ b.toNat) : Stops (b :: rest) (.badLead b)
  | truncated {a : UInt8} {trailing rest : List UInt8} (ha : 0xC0 ≤ a.toNat ∧ a.toNat < 0xF0)
      (htrailing : ∀ b ∈ trailing, Continues b) (hfew : trailing.length < if a.toNat < 0xE0 then 1 else 2)
      (hrest : ∀ b ∈ rest.head?, ¬ Continues b) : Stops (a :: (trailing ++ rest)) .truncated

/-- Why bytes spell no text: behind some groups no other one starts, or their units spell none. -/
inductive Refused : List UInt8 → DecodeError → Prop where
  | stops {front rest : List UInt8} {us : List UInt16} {e : DecodeError} (hfront : Groups front us)
      (hrest : Stops rest e) : Refused (front ++ rest) e
  | loneSurrogate {bytes : List UInt8} {us : List UInt16} (h : Groups bytes us)
      (hnone : ∀ text, ¬ Utf16.Spells us text) : Refused bytes .loneSurrogate

section Reader

variable {bytes front group rest : List UInt8} {us : List UInt16} {u : UInt16} {e : DecodeError}

theorem continues_iff (b : UInt8) : isContinuation b = true ↔ Continues b := isContinuation_iff b

theorem toUInt16_eq {n : Nat} (h : n = u.toNat) : n.toUInt16 = u := by
  rw [h, Nat.toUInt16_eq, UInt16.ofNat_toNat]

theorem unitsFrom_group (h : Group group u) (read : List UInt16) (rest : List UInt8) :
    unitsFrom read (group ++ rest) = unitsFrom (u :: read) rest := by
  cases h with
  | @single a u ha hu =>
    have hread := unitsFrom_single read (n := a.toNat) (by omega) (by omega) rest
    rwa [toUInt8_eq rfl, toUInt16_eq hu.symm] at hread
  | @pair a b u ha hb hu =>
    obtain ⟨hlow, hhigh⟩ := hb
    have hlead : a.toNat - 0xC0 < 32 := by omega
    have htrail : b.toNat - 0x80 < 64 := by omega
    have hread := unitsFrom_pair read hlead htrail rest
    rwa [toUInt8_eq (b := a) (by omega), toUInt8_eq (b := b) (by omega), toUInt16_eq hu.symm] at hread
  | @triple a b c u ha hb hc hu =>
    obtain ⟨hlow, hhigh⟩ := hb
    obtain ⟨hlow', hhigh'⟩ := hc
    have hlead : a.toNat - 0xE0 < 16 := by omega
    have hmiddle : b.toNat - 0x80 < 64 := by omega
    have htrail : c.toNat - 0x80 < 64 := by omega
    have hread := unitsFrom_triple read hlead hmiddle htrail rest
    rwa [toUInt8_eq (b := a) (by omega), toUInt8_eq (b := b) (by omega), toUInt8_eq (b := c) (by omega),
      toUInt16_eq hu.symm] at hread

theorem unitsFrom_groups (h : Groups front us) (read : List UInt16) (rest : List UInt8) :
    unitsFrom read (front ++ rest) = unitsFrom (us.reverse ++ read) rest := by
  induction h generalizing read with
  | nil => rfl
  | cons hgroup _ ih => rw [List.append_assoc, unitsFrom_group hgroup, ih, List.reverse_cons, List.append_assoc,
      List.singleton_append]

theorem unitsFrom_stops (h : Stops rest e) (read : List UInt16) : unitsFrom read rest = .error e := by
  cases h with
  | rawNul =>
    rw [unitsFrom.eq_def]
    rfl
  | @badLead b rest hb =>
    rw [unitsFrom.eq_def]
    simp only [UInt8.lt_iff_toNat_lt, UInt8.le_iff_toNat_le, Bool.and_eq_true, decide_eq_true_eq,
      UInt8.reduceToNat]
    unfold Continues at hb
    rw [if_neg (by omega), if_neg (by omega), if_neg (by omega)]
  | @truncated a trailing rest ha htrailing hfew hrest =>
    have hnone : ∀ b ∈ rest.head?, ¬ isContinuation b = true :=
      fun b hb => (continues_iff b).not.mpr (hrest b hb)
    rw [unitsFrom.eq_def]
    simp only [UInt8.lt_iff_toNat_lt, UInt8.le_iff_toNat_le, Bool.and_eq_true, decide_eq_true_eq,
      UInt8.reduceToNat]
    rw [if_neg (by omega)]
    by_cases hpair : a.toNat < 0xE0
    · rw [if_pos hpair] at hfew
      obtain rfl := List.length_eq_zero_iff.mp (Nat.lt_one_iff.mp hfew)
      rw [if_pos ⟨ha.1, hpair⟩, List.nil_append]
      cases rest with
      | nil => rfl
      | cons b rest => exact if_neg (hnone b rfl)
    · rw [if_neg hpair] at hfew
      rw [if_neg (fun h => hpair h.2), if_pos ⟨Nat.le_of_not_lt hpair, ha.2⟩]
      rcases trailing with _ | ⟨b, _ | ⟨c, more⟩⟩
      · rcases rest with _ | ⟨b, _ | ⟨c, rest⟩⟩
        · rfl
        · rfl
        · exact if_neg fun h => hnone b rfl h.1
      · rcases rest with _ | ⟨c, rest⟩
        · rfl
        · exact if_neg fun h => hnone c rfl h.2
      · rw [List.length_cons, List.length_cons] at hfew
        omega

/-! ### All bytes -/

/-- Behind a lead byte there are as many bytes as wanted that continue it, or fewer and then none. -/
theorem trailing_or_few (count : Nat) (bytes : List UInt8) :
    (∃ trailing rest, bytes = trailing ++ rest ∧ trailing.length = count ∧ ∀ b ∈ trailing, Continues b) ∨
      ∃ trailing rest, bytes = trailing ++ rest ∧ trailing.length < count ∧ (∀ b ∈ trailing, Continues b) ∧
        ∀ b ∈ rest.head?, ¬ Continues b := by
  induction count generalizing bytes with
  | zero => exact .inl ⟨[], bytes, rfl, rfl, nofun⟩
  | succ count ih =>
    cases bytes with
    | nil => exact .inr ⟨[], [], rfl, Nat.succ_pos count, nofun, nofun⟩
    | cons b bytes =>
      by_cases hb : Continues b
      · rcases ih bytes with ⟨trailing, rest, rfl, hlength, hall⟩ | ⟨trailing, rest, rfl, hfew, hall, hrest⟩
        · exact .inl ⟨b :: trailing, rest, rfl, congrArg Nat.succ hlength, List.forall_mem_cons.mpr ⟨hb, hall⟩⟩
        · exact .inr ⟨b :: trailing, rest, rfl, Nat.succ_lt_succ hfew, List.forall_mem_cons.mpr ⟨hb, hall⟩, hrest⟩
      · exact .inr ⟨[], b :: bytes, rfl, Nat.succ_pos count, nofun, fun c hc => Option.some.inj hc ▸ hb⟩

/-- Bytes that are not at their end start with a group, or show why none starts there. -/
theorem group_or_stops (a : UInt8) (rest : List UInt8) :
    (∃ group u back, a :: rest = group ++ back ∧ Group group u) ∨ ∃ e, Stops (a :: rest) e := by
  by_cases hzero : a.toNat = 0
  · obtain rfl : a = 0 := UInt8.toNat_inj.mp hzero
    exact .inr ⟨_, .rawNul⟩
  by_cases hsingle : a.toNat < 0x80
  · have ha : 0 < a.toNat ∧ a.toNat < 0x80 := ⟨Nat.pos_of_ne_zero hzero, hsingle⟩
    exact .inl ⟨[a], a.toUInt16, rest, rfl, .single ha (UInt8.toNat_toUInt16 a)⟩
  by_cases hlead : 0xC0 ≤ a.toNat ∧ a.toNat < 0xF0
  case neg =>
    refine .inr ⟨_, .badLead ?_⟩
    unfold Continues
    omega
  by_cases hpair : a.toNat < 0xE0
  · rcases trailing_or_few 1 rest with ⟨trailing, back, rfl, hlength, hall⟩ | ⟨trailing, back, rfl, hfew, hall, hback⟩
    · obtain ⟨b, rfl⟩ := List.length_eq_one_iff.mp hlength
      have hb : Continues b := hall b (by simp)
      have hunit : (a.toNat - 0xC0) * 64 + (b.toNat - 0x80) < 0x10000 := by
        unfold Continues at hb
        omega
      exact .inl ⟨[a, b], _, back, rfl, .pair ⟨hlead.1, hpair⟩ hb (Utf16.toNat_toUInt16 hunit)⟩
    · exact .inr ⟨_, .truncated hlead hall (by rwa [if_pos hpair]) hback⟩
  · rcases trailing_or_few 2 rest with ⟨trailing, back, rfl, hlength, hall⟩ | ⟨trailing, back, rfl, hfew, hall, hback⟩
    · obtain ⟨b, c, rfl⟩ := List.length_eq_two.mp hlength
      have hb : Continues b := hall b (by simp)
      have hc : Continues c := hall c (by simp)
      have hunit : (a.toNat - 0xE0) * 4096 + (b.toNat - 0x80) * 64 + (c.toNat - 0x80) < 0x10000 := by
        unfold Continues at hb hc
        omega
      have ha : 0xE0 ≤ a.toNat ∧ a.toNat < 0xF0 := ⟨Nat.le_of_not_lt hpair, hlead.2⟩
      exact .inl ⟨[a, b, c], _, back, rfl, .triple ha hb hc (Utf16.toNat_toUInt16 hunit)⟩
    · exact .inr ⟨_, .truncated hlead hall (by rwa [if_neg hpair]) hback⟩

theorem Group.length_pos (h : Group group u) : 0 < group.length := by
  cases h <;> exact Nat.succ_pos _

/-- Bytes are groups all through, or up to where no other one starts. -/
theorem groups_or_stops (bytes : List UInt8) :
    (∃ us, Groups bytes us) ∨ ∃ front us rest e, bytes = front ++ rest ∧ Groups front us ∧ Stops rest e := by
  induction hlength : bytes.length using Nat.strong_induction_on generalizing bytes with
  | _ length ih =>
    cases bytes with
    | nil => exact .inl ⟨[], .nil⟩
    | cons a rest =>
      rcases group_or_stops a rest with ⟨group, u, back, hbytes, hgroup⟩ | ⟨e, hstops⟩
      · have hshorter : back.length < length := by
          have := congrArg List.length hbytes
          have := hgroup.length_pos
          rw [List.length_append] at *
          omega
        rw [hbytes]
        rcases ih _ hshorter back rfl with ⟨us, hus⟩ | ⟨front, us, rest', e, rfl, hfront, hstops⟩
        · exact .inl ⟨u :: us, .cons hgroup hus⟩
        · have hfront' : Groups (group ++ front) (u :: us) := .cons hgroup hfront
          exact .inr ⟨group ++ front, u :: us, rest', e, (List.append_assoc ..).symm, hfront', hstops⟩
      · exact .inr ⟨[], [], a :: rest, e, rfl, .nil, hstops⟩

theorem units_of_groups (h : Groups bytes us) : units bytes = .ok us := by
  have hread := unitsFrom_groups h [] []
  rwa [List.append_nil, List.append_nil, unitsFrom, List.reverse_reverse] at hread

theorem units_of_stops (hfront : Groups front us) (hrest : Stops rest e) : units (front ++ rest) = .error e := by
  rw [units, unitsFrom_groups hfront, unitsFrom_stops hrest]

theorem decode_of_groups (h : Groups bytes us) : decode bytes =
    match Utf16.decode us with
    | some text => .ok (String.ofList text)
    | none => .error .loneSurrogate := by
  cases hus : Utf16.decode us <;> simp only [decode, units_of_groups h, hus]

/-- Exactly groups of units that spell a text are decoded, to this text. -/
theorem decode_eq_ok_iff {text : String} :
    decode bytes = .ok text ↔ ∃ us, Groups bytes us ∧ Utf16.Spells us text.toList := by
  constructor
  · intro h
    rcases groups_or_stops bytes with ⟨us, hus⟩ | ⟨front, us, rest, e, rfl, hfront, hrest⟩
    · rw [decode_of_groups hus] at h
      split at h
      · rename_i chars hchars
        obtain rfl := Except.ok.inj h
        exact ⟨us, hus, by rw [String.toList_ofList]; exact Utf16.decode_eq_some_iff.mp hchars⟩
      · cases h
    · rw [decode, units_of_stops hfront hrest] at h
      cases h
  · rintro ⟨us, hus, hspells⟩
    rw [decode_of_groups hus, Utf16.decode_eq_some_iff.mpr hspells]
    exact congrArg Except.ok (String.ofList_toList)

/-- All other bytes are refused, for the cause that shows in them. -/
theorem decode_eq_error_iff : decode bytes = .error e ↔ Refused bytes e := by
  have hnone : ∀ us, Utf16.decode us = none ↔ ∀ text, ¬ Utf16.Spells us text := by
    intro us
    simp only [← Utf16.decode_eq_some_iff, Option.eq_none_iff_forall_ne_some, ne_eq]
  constructor
  · intro h
    rcases groups_or_stops bytes with ⟨us, hus⟩ | ⟨front, us, rest, e', rfl, hfront, hrest⟩
    · rw [decode_of_groups hus] at h
      split at h
      · cases h
      · rename_i hchars
        obtain rfl := Except.error.inj h
        exact .loneSurrogate hus ((hnone us).mp hchars)
    · rw [decode, units_of_stops hfront hrest] at h
      obtain rfl := Except.error.inj h
      exact .stops hfront hrest
  · rintro (⟨hfront, hrest⟩ | ⟨hus, hspells⟩)
    · rw [decode, units_of_stops hfront hrest]
    · rw [decode_of_groups hus, (hnone _).mpr hspells]

end Reader

/-! ## Reading by offset -/

section Offsets

variable (bytes : List UInt8) (offset : Nat)

/-- What a byte contributes that continues a group, looked up where there may be none. -/
def trailingAt : Except DecodeError Nat :=
  match bytes[offset]? with
  | some b => if isContinuation b then .ok (payload b 64) else .error .truncated
  | none => .error .truncated

/-- The unit of the group at an offset with a lead byte, and the number of bytes behind that one. -/
def groupAt (a : UInt8) : Except DecodeError (UInt16 × Nat) :=
  if a < 0x80 then
    if a = 0 then .error .rawNul else .ok (a.toUInt16, 0)
  else if 0xC0 ≤ a && a < 0xE0 then do
    let b ← trailingAt bytes (offset + 1)
    return ((payload a 32 * 64 + b).toUInt16, 1)
  else if 0xE0 ≤ a && a < 0xF0 then do
    let b ← trailingAt bytes (offset + 1)
    let c ← trailingAt bytes (offset + 2)
    return ((payload a 16 * 4096 + b * 64 + c).toUInt16, 2)
  else .error (.badLead a)

/-- Units read from an offset on, after the reversed `read` ones; `none` is a lead byte past the end. -/
def unitsAt (bytes : List UInt8) (read : List UInt16) (offset : Nat) :
    Option (Except DecodeError (List UInt16)) :=
  if offset < bytes.length then
    match bytes[offset]? with
    | some a =>
      match groupAt bytes offset a with
      | .error e => some (.error e)
      | .ok (u, trailing) => unitsAt bytes (u :: read) (offset + 1 + trailing)
    | none => none
  else some (.ok read.reverse)
termination_by bytes.length - offset
decreasing_by omega

variable {bytes offset}

theorem unitsFrom_groupAt {a : UInt8} {rest : List UInt8} (h : bytes.drop offset = a :: rest)
    (read : List UInt16) :
    unitsFrom read (a :: rest) = groupAt bytes offset a >>= fun (u, trailing) =>
      unitsFrom (u :: read) (bytes.drop (offset + 1 + trailing)) := by
  have hbehind : ∀ i, bytes[offset + 1 + i]? = rest[i]? := by
    intro i
    rw [Nat.add_assoc, Nat.add_comm 1 i, ← List.getElem?_drop, h, List.getElem?_cons_succ]
  have hdrop : ∀ i, bytes.drop (offset + 1 + i) = rest.drop i := by
    intro i
    rw [Nat.add_assoc, ← List.drop_drop, h, Nat.add_comm 1 i, List.drop_succ_cons]
  have hfirst : bytes[offset + 1]? = rest[0]? := hbehind 0
  have hsecond : bytes[offset + 2]? = rest[1]? := hbehind 1
  rw [unitsFrom.eq_def]
  simp only [groupAt, trailingAt, hfirst, hsecond, hdrop]
  split_ifs with hsingle hzero hpair htriple
  · rfl
  · rfl
  · cases rest with
    | nil => rfl
    | cons b rest => cases hb : isContinuation b <;> simp [hb, bind, Except.bind, pure, Except.pure]
  · rcases rest with _ | ⟨b, _ | ⟨c, rest⟩⟩
    · rfl
    · cases hb : isContinuation b <;> simp [hb, bind, Except.bind]
    · cases hb : isContinuation b <;> cases hc : isContinuation c <;>
        simp [hb, hc, bind, Except.bind, pure, Except.pure]
  · rfl

/-- The lead byte is looked up inside the bytes only. -/
theorem unitsAt_eq (read : List UInt16) (offset : Nat) :
    unitsAt bytes read offset = some (unitsFrom read (bytes.drop offset)) := by
  have hdrop : ∀ offset a, bytes[offset]? = some a → bytes.drop offset = a :: bytes.drop (offset + 1) := by
    intro offset a ha
    obtain ⟨hlt, rfl⟩ := List.getElem?_eq_some_iff.mp ha
    exact List.drop_eq_getElem_cons hlt
  fun_induction unitsAt bytes read offset with
  | case1 read offset hlt a ha e hgroup =>
    rw [hdrop offset a ha, unitsFrom_groupAt (hdrop offset a ha), hgroup]
    rfl
  | case2 read offset hlt a ha u trailing hgroup ih =>
    rw [hdrop offset a ha, unitsFrom_groupAt (hdrop offset a ha), hgroup, ih]
    rfl
  | case3 read offset hlt hnone =>
    rw [List.getElem?_eq_none_iff] at hnone
    exact absurd hlt (Nat.not_lt.mpr hnone)
  | case4 read offset hend =>
    rw [List.drop_eq_nil_of_le (Nat.le_of_not_lt hend), unitsFrom]

/-- The text that the bytes spell, read by offset; `none` is a read past the end. -/
def decodeAt (bytes : List UInt8) : Option (Except DecodeError String) :=
  (unitsAt bytes [] 0).map fun
    | .error e => .error e
    | .ok us =>
      match Utf16.decode us with
      | some text => .ok (String.ofList text)
      | none => .error .loneSurrogate

theorem decodeAt_eq (bytes : List UInt8) : decodeAt bytes = some (decode bytes) := by
  rw [decodeAt, unitsAt_eq, List.drop_zero]
  rfl

end Offsets

/-! ## Texts -/

/-- No byte of a unit is zero, and none is above those that lead three. -/
theorem encodeUnit_range (u : UInt16) : ∀ b ∈ encodeUnit u, b ≠ 0 ∧ b < 0xF0 := by
  have hrange : ∀ n, 0 < n → n < 0xF0 → n.toUInt8 ≠ 0 ∧ n.toUInt8 < 0xF0 := by
    intro n hpos hlt
    have hbyte : n < 256 := Nat.lt_trans hlt (by decide)
    rw [toUInt8_lt hbyte, ne_eq, ← UInt8.toNat_inj, toNat_toUInt8 hbyte]
    exact ⟨Nat.ne_of_gt hpos, hlt⟩
  have hu := u.toNat_lt
  intro b hb
  unfold encodeUnit at hb
  dsimp only at hb
  split_ifs at hb with hone htwo
  · rw [List.mem_singleton.mp hb]
    exact hrange _ (by omega) (by omega)
  · simp only [List.mem_cons, List.not_mem_nil, or_false] at hb
    rcases hb with rfl | rfl
    · exact hrange _ (by omega) (by omega)
    · exact hrange _ (by omega) (by omega)
  · simp only [List.mem_cons, List.not_mem_nil, or_false] at hb
    rcases hb with rfl | rfl | rfl
    · exact hrange _ (by omega) (by omega)
    · exact hrange _ (by omega) (by omega)
    · exact hrange _ (by omega) (by omega)

theorem encode_range (text : String) : ∀ b ∈ encode text, b ≠ 0 ∧ b < 0xF0 := by
  intro b hb
  obtain ⟨u, _, hb⟩ := List.mem_flatMap.mp hb
  exact encodeUnit_range u b hb

theorem encode_injective : Function.Injective encode := by
  intro text text' h
  have hdecode := decode_of_encode text
  rw [h, decode_of_encode] at hdecode
  exact (Except.ok.inj hdecode).symm

/-- Every text is read back from its encoding, which holds no zero byte and none from `0xF0` up, and no two
texts have the same one. Any bytes are read to an answer, and no read goes past their end: they are refused for a
cause that shows in them, or they are groups of one to three bytes and the answer is the text that the units
of these spell. -/
theorem decode_exact :
    (∀ text, decode (encode text) = .ok text ∧ ∀ b ∈ encode text, b ≠ 0 ∧ b < 0xF0) ∧
      Function.Injective encode ∧
      ∀ bytes, decodeAt bytes = some (decode bytes) ∧
        ((∃ text, decode bytes = .ok text) ∨ ∃ e, decode bytes = .error e) ∧
        (∀ text, decode bytes = .ok text ↔ ∃ us, Groups bytes us ∧ Utf16.Spells us text.toList) ∧
        ∀ e, decode bytes = .error e ↔ Refused bytes e := by
  refine ⟨fun text => ⟨decode_of_encode text, encode_range text⟩, encode_injective, fun bytes => ?_⟩
  refine ⟨decodeAt_eq bytes, ?_, fun text => decode_eq_ok_iff, fun e => decode_eq_error_iff⟩
  cases decode bytes with
  | ok text => exact .inl ⟨text, rfl⟩
  | error e => exact .inr ⟨e, rfl⟩

/-- The zero character takes two bytes, and a character above `U+FFFF` six. -/
theorem decode_exact_mixed :
    encode "a\x00é😀" = [0x61, 0xC0, 0x80, 0xC3, 0xA9, 0xED, 0xA0, 0xBD, 0xED, 0xB8, 0x80] ∧
      decode [0x61, 0xC0, 0x80, 0xC3, 0xA9, 0xED, 0xA0, 0xBD, 0xED, 0xB8, 0x80] = .ok "a\x00é😀" ∧
      ((0xED : UInt8) ≠ 0 ∧ (0xED : UInt8) < 0xF0) ∧ Refused [0x61, 0xED, 0xA0] .truncated := by
  have hencode : encode "a\x00é😀" = [0x61, 0xC0, 0x80, 0xC3, 0xA9, 0xED, 0xA0, 0xBD, 0xED, 0xB8, 0x80] := by
    decide +kernel
  obtain ⟨hdecode, hrange⟩ := decode_exact.1 "a\x00é😀"
  rw [hencode] at hdecode hrange
  exact ⟨hencode, hdecode, hrange 0xED (by decide), ((decode_exact.2.2 _).2.2.2 _).mp (by decide +kernel)⟩

end ModifiedUtf8

end DirectCall.Text
