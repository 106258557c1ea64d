import DirectCall.Bytes.Reader
import DirectCall.Bytes.Writer
import DirectCall.Proofs.Result
import Mathlib.Data.List.Forall2
import Mathlib.Tactic.SplitIfs

/-!
# What a reader takes

A read never goes back, and bytes that were read are counted (`Reader.Gives`): whatever a reader is
put together from, its cursor passes to one behind it in the same bytes.

A reader takes spellings (`Reader.Takes`) if what it reads off the front, whenever it succeeds, stands in
a relation to the value. A number takes its own spelling, so what was read part by part is known part by
part.
-/

namespace DirectCall.Bytes

/-- The second cursor stands where the first one does or behind it, in the same bytes. -/
structure Cursor.Passes (c c' : Cursor) : Prop where
  forward : c.offset ≤ c'.offset
  total : c.offset + c.rest.length = c'.offset + c'.rest.length

theorem Cursor.Passes.refl (c : Cursor) : c.Passes c :=
  ⟨Nat.le_refl _, rfl⟩

theorem Cursor.Passes.trans {c c' c'' : Cursor} (h : c.Passes c') (h' : c'.Passes c'') : c.Passes c'' :=
  ⟨Nat.le_trans h.forward h'.forward, h.total.trans h'.total⟩

namespace Reader

variable {α β : Type} {P : α → Prop} {Q : β → Prop}

/-- Whenever the reader succeeds, it has moved on, and its value has the property. -/
def Gives (read : Reader α) (P : α → Prop) : Prop :=
  ∀ c a c', read c = .ok (a, c') → c.Passes c' ∧ P a

/-- Whenever the reader succeeds, it has moved on. -/
def Advances (read : Reader α) : Prop := read.Gives fun _ => True

theorem bind_apply_eq_ok {read : Reader α} {next : α → Reader β} {c c' : Cursor} {b : β} :
    (read >>= next) c = .ok (b, c') ↔
      ∃ a middle, read c = .ok (a, middle) ∧ next a middle = .ok (b, c') := by
  rw [show (read >>= next) c = read c >>= fun r => next r.1 r.2 from rfl, bind_eq_ok, Prod.exists]

theorem get_bind_apply (next : Cursor → Reader α) (c : Cursor) : (get >>= next) c = next c c :=
  rfl

theorem gives_pure {a : α} (h : P a) : (pure a : Reader α).Gives P := by
  intro c b c' hread
  cases hread
  exact ⟨.refl c, h⟩

theorem gives_throw (fault : Fault) : (throw fault : Reader α).Gives P := by
  intro c b c' hread
  cases hread

theorem Gives.ite {c : Prop} [Decidable c] {read read' : Reader α} (h : read.Gives P)
    (h' : read'.Gives P) : (if c then read else read').Gives P := by
  split_ifs
  · exact h
  · exact h'

theorem Gives.bind {read : Reader α} {next : α → Reader β} (h : read.Gives P)
    (hnext : ∀ a, P a → (next a).Gives Q) : (read >>= next).Gives Q := by
  intro c b c' hread
  obtain ⟨a, middle, ha, hb⟩ := bind_apply_eq_ok.mp hread
  obtain ⟨hpasses, hP⟩ := h c a middle ha
  obtain ⟨hpasses', hQ⟩ := hnext a hP middle b c' hb
  exact ⟨hpasses.trans hpasses', hQ⟩

theorem Advances.bind {read : Reader α} {next : α → Reader β} (h : read.Advances)
    (hnext : ∀ a, (next a).Gives Q) : (read >>= next).Gives Q :=
  Gives.bind h fun a _ => hnext a

theorem advances_bytes (count : Nat) : (bytes count).Advances := by
  intro c taken c' hread
  unfold bytes at hread
  simp only [List.splitAt_eq] at hread
  split_ifs at hread with hlength
  simp only [Except.ok.injEq, Prod.mk.injEq] at hread
  obtain ⟨rfl, rfl⟩ := hread
  rw [List.length_take] at hlength
  refine ⟨⟨Nat.le_add_right _ _, ?_⟩, trivial⟩
  simp only [List.length_drop]
  omega

theorem advances_number (count : Nat) : (number count).Advances :=
  (advances_bytes count).bind fun _ => gives_pure trivial

theorem advances_u8 : u8.Advances := (advances_number 1).bind fun _ => gives_pure trivial

theorem advances_u16 : u16.Advances := (advances_number 2).bind fun _ => gives_pure trivial

theorem advances_u32 : u32.Advances := (advances_number 4).bind fun _ => gives_pure trivial

theorem advances_i32 : i32.Advances := advances_u32.bind fun _ => gives_pure trivial

theorem Gives.times {read : Reader α} (h : read.Gives P) (count : Nat) :
    (Reader.times count read).Gives fun items => ∀ a ∈ items, P a := by
  have hfrom : ∀ done, (∀ a ∈ done, P a) →
      (timesFrom read done count).Gives fun items => ∀ a ∈ items, P a := by
    induction count with
    | zero => exact fun done hdone => gives_pure fun a ha => hdone a (List.mem_reverse.mp ha)
    | succ count ih =>
      exact fun done hdone => h.bind fun a ha => ih (a :: done) (List.forall_mem_cons.mpr ⟨ha, hdone⟩)
  exact hfrom [] fun a ha => absurd ha List.not_mem_nil

/-- What was read from the start of some bytes has the property. -/
theorem Gives.of {read : Reader α} (h : read.Gives P) {data : List UInt8} {a : α}
    (hread : read.of data = .ok a) : P a := by
  unfold Reader.of at hread
  cases hresult : read (.start data) with
  | error fault =>
    rw [hresult] at hread
    cases hread
  | ok result =>
    rw [hresult] at hread
    cases hread
    exact (h _ result.1 result.2 hresult).2

end Reader

/-! ## Spellings -/

/-! ## Numbers and their digits -/

/-- Two digits are the spelling of their number. -/
theorem ofUInt16_bigEndian (a b : UInt8) : ofUInt16 (Reader.bigEndian 0 [a, b]).toUInt16 = [a, b] := by
  have ha := a.toNat_lt
  have hb := b.toNat_lt
  have hvalue : (Reader.bigEndian 0 [a, b]).toUInt16.toNat = a.toNat * 256 + b.toNat := by
    rw [Nat.toUInt16_eq, UInt16.toNat_ofNat', Nat.mod_eq_of_lt]
    · simp [Reader.bigEndian]
    · simp only [Reader.bigEndian]
      omega
  have hhigh : ((Reader.bigEndian 0 [a, b]).toUInt16 >>> 8).toUInt8 = a := by
    apply UInt8.toNat_inj.mp
    simp only [UInt16.toNat_toUInt8, UInt16.toNat_shiftRight, hvalue, Nat.shiftRight_eq_div_pow,
      show UInt16.toNat 8 % 16 = 8 from rfl]
    omega
  have hlow : (Reader.bigEndian 0 [a, b]).toUInt16.toUInt8 = b := by
    apply UInt8.toNat_inj.mp
    simp only [UInt16.toNat_toUInt8, hvalue]
    omega
  rw [ofUInt16, hhigh, hlow]

theorem bigEndian_four_lt (a b c d : UInt8) : Reader.bigEndian 0 [a, b, c, d] < 0x100000000 := by
  have ha := a.toNat_lt
  have hb := b.toNat_lt
  have hc := c.toNat_lt
  have hd := d.toNat_lt
  simp only [Reader.bigEndian]
  omega

/-- Four digits are the spelling of their number. -/
theorem ofUInt32_bigEndian (a b c d : UInt8) :
    ofUInt32 (Reader.bigEndian 0 [a, b, c, d]).toUInt32 = [a, b, c, d] := by
  have ha := a.toNat_lt
  have hb := b.toNat_lt
  have hc := c.toNat_lt
  have hd := d.toNat_lt
  have hvalue : (Reader.bigEndian 0 [a, b, c, d]).toUInt32.toNat =
      ((a.toNat * 256 + b.toNat) * 256 + c.toNat) * 256 + d.toNat := by
    rw [Nat.toUInt32_eq, UInt32.toNat_ofNat', Nat.mod_eq_of_lt (bigEndian_four_lt a b c d)]
    simp [Reader.bigEndian]
  have hbyte : ∀ (k : UInt32) (e : UInt8) (n : Nat), k.toNat % 32 = n →
      (Reader.bigEndian 0 [a, b, c, d]).toUInt32.toNat / 2 ^ n % 256 = e.toNat →
      ((Reader.bigEndian 0 [a, b, c, d]).toUInt32 >>> k).toUInt8 = e := by
    intro k e n hk he
    apply UInt8.toNat_inj.mp
    rw [UInt32.toNat_toUInt8, UInt32.toNat_shiftRight, Nat.shiftRight_eq_div_pow, hk, he]
  have hlast : (Reader.bigEndian 0 [a, b, c, d]).toUInt32.toUInt8 = d := by
    apply UInt8.toNat_inj.mp
    rw [UInt32.toNat_toUInt8, hvalue]
    omega
  rw [ofUInt32, hbyte 24 a 24 rfl (by rw [hvalue]; omega), hbyte 16 b 16 rfl (by rw [hvalue]; omega),
    hbyte 8 c 8 rfl (by rw [hvalue]; omega), hlast]

/-- A number of eight bytes is spelt as its two halves. -/
theorem ofUInt64_halves (high low : UInt32) :
    ofUInt64 (high.toNat * 0x100000000 + low.toNat).toUInt64 = ofUInt32 high ++ ofUInt32 low := by
  have hhigh := high.toNat_lt
  have hlow := low.toNat_lt
  have hvalue : (high.toNat * 0x100000000 + low.toNat).toUInt64.toNat =
      high.toNat * 0x100000000 + low.toNat := by
    rw [Nat.toUInt64_eq, UInt64.toNat_ofNat', Nat.mod_eq_of_lt (by omega)]
  have hupper : ((high.toNat * 0x100000000 + low.toNat).toUInt64 >>> 32).toUInt32 = high := by
    apply UInt32.toNat_inj.mp
    simp only [UInt64.toNat_toUInt32, UInt64.toNat_shiftRight, hvalue, Nat.shiftRight_eq_div_pow,
      show UInt64.toNat 32 % 64 = 32 from rfl]
    omega
  have hlower : (high.toNat * 0x100000000 + low.toNat).toUInt64.toUInt32 = low := by
    apply UInt32.toNat_inj.mp
    simp only [UInt64.toNat_toUInt32, hvalue]
    omega
  rw [ofUInt64, hupper, hlower]

namespace Reader

variable {α β : Type} {P P' : List UInt8 → α → Prop} {Q : List UInt8 → β → Prop}

/-- Whenever the reader succeeds, it has taken some bytes off the front, and they are in relation to its
value. -/
def Takes (read : Reader α) (P : List UInt8 → α → Prop) : Prop :=
  ∀ c a c', read c = .ok (a, c') →
    ∃ taken, c.rest = taken ++ c'.rest ∧ c'.offset = c.offset + taken.length ∧ P taken a

theorem takes_pure {a : α} (h : P [] a) : (pure a : Reader α).Takes P := by
  intro c b c' hread
  cases hread
  exact ⟨[], rfl, rfl, h⟩

theorem takes_throw (fault : Fault) : (throw fault : Reader α).Takes P := by
  intro c a c' hread
  cases hread

theorem Takes.imp {read : Reader α} (h : read.Takes P) (himp : ∀ taken a, P taken a → P' taken a) :
    read.Takes P' := by
  intro c a c' hread
  obtain ⟨taken, hrest, hoffset, hP⟩ := h c a c' hread
  exact ⟨taken, hrest, hoffset, himp taken a hP⟩

theorem Takes.bind {read : Reader α} {next : α → Reader β} (h : read.Takes P)
    (hnext : ∀ taken a, P taken a → (next a).Takes fun taken' b => Q (taken ++ taken') b) :
    (read >>= next).Takes Q := by
  intro c b c' hread
  obtain ⟨a, middle, ha, hb⟩ := bind_apply_eq_ok.mp hread
  obtain ⟨taken, hrest, hoffset, hP⟩ := h c a middle ha
  obtain ⟨taken', hrest', hoffset', hQ⟩ := hnext taken a hP middle b c' hb
  refine ⟨taken ++ taken', ?_, ?_, hQ⟩
  · rw [hrest, hrest', List.append_assoc]
  · rw [hoffset', hoffset, List.length_append, Nat.add_assoc]

/-- A last step that reads nothing. -/
theorem Takes.bind_pure {read : Reader α} {f : α → β} (h : read.Takes P)
    (himp : ∀ taken a, P taken a → Q taken (f a)) : (read >>= fun a => pure (f a)).Takes Q := by
  refine h.bind fun taken a hP => takes_pure ?_
  rw [List.append_nil]
  exact himp taken a hP

theorem Takes.map {read : Reader α} {f : α → β} (h : read.Takes P)
    (himp : ∀ taken a, P taken a → Q taken (f a)) : (f <$> read).Takes Q := by
  rw [map_eq_pure_bind]
  exact h.bind_pure himp

theorem Takes.ite {c : Prop} [Decidable c] {read read' : Reader α} (h : c → read.Takes P)
    (h' : ¬ c → read'.Takes P) : (if c then read else read').Takes P := by
  split_ifs with hc
  · exact h hc
  · exact h' hc

theorem Takes.reading {read : Reader α} (h : read.Takes P) (context : Context) :
    (Reader.reading context read).Takes P :=
  fun c a c' hread => h c a c' (during_eq_ok.mp hread)

/-! ## Bytes and numbers -/

theorem takes_bytes (count : Nat) : (bytes count).Takes fun taken a => taken.length = count ∧ a = taken := by
  intro c a c' hread
  unfold bytes at hread
  simp only [List.splitAt_eq] at hread
  split_ifs at hread with hlength
  cases hread
  exact ⟨c.rest.take count, (List.take_append_drop count c.rest).symm, by rw [hlength], hlength, rfl⟩

theorem takes_number (count : Nat) :
    (number count).Takes fun taken n => taken.length = count ∧ n = bigEndian 0 taken :=
  (takes_bytes count).bind_pure fun taken a h => ⟨h.1, by rw [h.2]⟩

theorem takes_u8 : u8.Takes fun taken b => taken = [b] := by
  refine (takes_number 1).bind_pure fun taken n h => ?_
  obtain ⟨b, rfl⟩ := List.length_eq_one_iff.mp h.1
  rw [h.2]
  simp [bigEndian]

theorem takes_u16 : u16.Takes fun taken n => taken = ofUInt16 n := by
  refine (takes_number 2).bind_pure fun taken n h => ?_
  obtain ⟨a, b, rfl⟩ := List.length_eq_two.mp h.1
  rw [h.2, ofUInt16_bigEndian]

/-- A number of four bytes is spelt by them. -/
theorem takes_number_four :
    (number 4).Takes fun taken n => n < 0x100000000 ∧ taken = ofUInt32 n.toUInt32 := by
  refine (takes_number 4).imp fun taken n h => ?_
  obtain ⟨hlength, rfl⟩ := h
  obtain ⟨a, b, c, d, rfl⟩ : ∃ a b c d, taken = [a, b, c, d] := by
    match taken, hlength with
    | [a, b, c, d], _ => exact ⟨a, b, c, d, rfl⟩
  exact ⟨bigEndian_four_lt a b c d, (ofUInt32_bigEndian a b c d).symm⟩

theorem takes_u32 : u32.Takes fun taken n => taken = ofUInt32 n :=
  takes_number_four.bind_pure fun _ _ h => h.2

theorem takes_u64 : u64.Takes fun taken n => taken = ofUInt64 n := by
  refine takes_number_four.bind fun taken high hhigh => ?_
  refine takes_number_four.bind_pure fun taken' low hlow => ?_
  have hhalves := ofUInt64_halves high.toUInt32 low.toUInt32
  have hvalue : ∀ {n : Nat}, n < 0x100000000 → n.toUInt32.toNat = n := by
    intro n hn
    rw [Nat.toUInt32_eq, UInt32.toNat_ofNat', Nat.mod_eq_of_lt hn]
  rw [hvalue hhigh.1, hvalue hlow.1] at hhalves
  rw [hhigh.2, hlow.2, hhalves]

theorem takes_i8 : i8.Takes fun taken n => taken = [n.toUInt8] :=
  takes_u8.bind_pure fun _ b h => by rw [h]; simp

theorem takes_i16 : i16.Takes fun taken n => taken = ofInt16 n :=
  takes_u16.bind_pure fun _ n h => by rw [h]; simp [ofInt16]

theorem takes_i32 : i32.Takes fun taken n => taken = ofInt32 n :=
  takes_u32.bind_pure fun _ n h => by rw [h]; simp [ofInt32]

theorem takes_lift (result : Except Fault α) :
    (lift result).Takes fun taken a => taken = [] ∧ result = .ok a := by
  intro c a c' hread
  cases result with
  | error fault => cases hread
  | ok value =>
    cases hread
    exact ⟨[], rfl, rfl, rfl, rfl⟩

/-! ## Tables -/

theorem takes_times {read : Reader α} (h : read.Takes P) (count : Nat) :
    (times count read).Takes fun taken items => items.length = count ∧
      ∃ parts, List.Forall₂ (fun a part => P part a) items parts ∧ taken = parts.flatten := by
  have hfrom : ∀ done, (timesFrom read done count).Takes fun taken items =>
      ∃ new parts, items = done.reverse ++ new ∧ new.length = count ∧
        List.Forall₂ (fun a part => P part a) new parts ∧ taken = parts.flatten := by
    induction count with
    | zero =>
      intro done
      exact takes_pure ⟨[], [], by simp, rfl, .nil, rfl⟩
    | succ count ih =>
      intro done
      refine h.bind fun part a hpart => (ih (a :: done)).imp ?_
      rintro taken items ⟨new, parts, rfl, hlength, hparts, rfl⟩
      exact ⟨a :: new, part :: parts, by simp, by simp [hlength], .cons hpart hparts, by simp⟩
  refine (hfrom []).imp ?_
  rintro taken items ⟨new, parts, rfl, hlength, hparts, rfl⟩
  exact ⟨by simpa using hlength, parts, by simpa using hparts, rfl⟩

end Reader

/-- The parts of a concatenation that are all written. -/
theorem concat_map_of_forall₂ {α : Type} {write : α → Except Fault (List UInt8)} {items : List α}
    {parts : List (List UInt8)} (h : List.Forall₂ (fun a part => write a = .ok part) items parts) :
    concat (items.map write) = .ok parts.flatten := by
  have hparts : (items.map write).mapM id = .ok parts :=
    mapM_eq_ok.mpr (List.forall₂_map_left_iff.mpr h)
  rw [concat, hparts]
  rfl

theorem concat_cons {part content : List UInt8} {parts : List (Except Fault (List UInt8))}
    (h : concat parts = .ok content) : concat (.ok part :: parts) = .ok (part ++ content) := by
  obtain ⟨found, hfound, h⟩ := bind_eq_ok.mp h
  cases h
  refine bind_eq_ok.mpr ⟨part :: found, ?_, rfl⟩
  rw [List.mapM_cons]
  exact bind_eq_ok.mpr ⟨part, rfl, bind_eq_ok.mpr ⟨found, hfound, rfl⟩⟩

theorem concat_map_of_forall {α : Type} {write : α → Except Fault (List UInt8)} {spell : α → List UInt8}
    {items : List α} (h : ∀ a ∈ items, write a = .ok (spell a)) :
    concat (items.map write) = .ok (items.map spell).flatten :=
  concat_map_of_forall₂ (List.forall₂_map_right_iff.mpr (List.forall₂_same.mpr h))

namespace Reader

variable {α : Type}

/-- A table is written as it was read if its items are. -/
theorem takes_table {read : Reader α} {write : α → Except Fault (List UInt8)}
    (h : read.Takes fun taken a => write a = .ok taken) :
    (Reader.table read).Takes fun taken items => Bytes.table items write = .ok taken := by
  refine takes_u16.bind fun taken count hcount => (takes_times h count.toNat).imp ?_
  rintro taken' items ⟨hlength, parts, hparts, rfl⟩
  have hsmall := count.toNat_lt
  have hwritten : items.length.toUInt16 = count := by
    rw [hlength, Nat.toUInt16_eq, UInt16.ofNat_toNat]
  rw [Bytes.table, tableLength, if_pos (by omega), concat_map_of_forall₂ hparts, hwritten, hcount]
  rfl

end Reader

end DirectCall.Bytes
