import DirectCall.Bytes.Writer
import DirectCall.Proofs.Bytes.Taken
import Mathlib.Data.List.Forall2

/-!
# Reading back what was written

A reader reads a spelling back (`Reader.Reads`) if it gives the value whatever follows, and stops right
behind the spelling. So what is written part by part is read back part by part.
-/

namespace DirectCall.Bytes

/-! ## What writers put together -/

/-- The parts of a concatenation in their order. -/
theorem concat_map_eq_ok {α : Type} {items : List α} {write : α → Except Fault (List UInt8)}
    {spelling : List UInt8} (h : concat (items.map write) = .ok spelling) :
    ∃ parts, List.Forall₂ (fun a part => write a = .ok part) items parts ∧
      spelling = parts.flatten := by
  unfold concat at h
  obtain ⟨parts, hparts, hspelling⟩ := bind_eq_ok.mp h
  cases hspelling
  exact ⟨parts, (List.forall₂_map_left_iff).mp (mapM_eq_ok.mp hparts), rfl⟩

theorem ok_of_concat_map {α : Type} {items : List α} {write : α → Except Fault (List UInt8)}
    {spelling : List UInt8} (h : concat (items.map write) = .ok spelling) {a : α} (ha : a ∈ items) :
    ∃ part, write a = .ok part := by
  obtain ⟨parts, hparts, _⟩ := concat_map_eq_ok h
  obtain ⟨part, _, hpart⟩ := exists_of_forall₂ hparts ha
  exact ⟨part, hpart⟩

theorem tableLength_eq_ok {length : Nat} {spelling : List UInt8} :
    tableLength length = .ok spelling ↔ length ≤ 65535 ∧ spelling = ofUInt16 length.toUInt16 := by
  unfold tableLength
  split_ifs with h
  · simp [h, eq_comm]
  · simp [h]

theorem table_eq_ok {α : Type} {items : List α} {write : α → Except Fault (List UInt8)}
    {spelling : List UInt8} (h : table items write = .ok spelling) :
    items.length ≤ 65535 ∧ ∃ parts, List.Forall₂ (fun a part => write a = .ok part) items parts ∧
      spelling = ofUInt16 items.length.toUInt16 ++ parts.flatten := by
  obtain ⟨length, hlength, h⟩ := bind_eq_ok.mp h
  obtain ⟨hsmall, rfl⟩ := tableLength_eq_ok.mp hlength
  obtain ⟨content, hcontent, h⟩ := bind_eq_ok.mp h
  cases h
  obtain ⟨parts, hparts, rfl⟩ := concat_map_eq_ok hcontent
  exact ⟨hsmall, parts, hparts, rfl⟩

namespace Reader

variable {α β : Type}

/-- Whatever follows the spelling, the reader gives the value and stops behind the spelling. -/
def Reads (read : Reader α) (spelling : List UInt8) (a : α) : Prop :=
  ∀ offset rest, read ⟨offset, spelling ++ rest⟩ = .ok (a, ⟨offset + spelling.length, rest⟩)

theorem reads_pure (a : α) : (pure a : Reader α).Reads [] a :=
  fun _ _ => rfl

theorem Reads.bind {read : Reader α} {next : α → Reader β} {spelling spelling' : List UInt8} {a : α}
    {b : β} (h : read.Reads spelling a) (hnext : (next a).Reads spelling' b) :
    (read >>= next).Reads (spelling ++ spelling') b := by
  intro offset rest
  rw [bind_apply_eq_ok]
  refine ⟨a, ⟨offset + spelling.length, spelling' ++ rest⟩, ?_, ?_⟩
  · rw [List.append_assoc]
    exact h offset (spelling' ++ rest)
  · rw [List.length_append, ← Nat.add_assoc]
    exact hnext (offset + spelling.length) rest

/-- A last step that reads nothing. -/
theorem Reads.bind_pure {read : Reader α} {spelling : List UInt8} {a : α} (h : read.Reads spelling a)
    (f : α → β) : (read >>= fun a => pure (f a)).Reads spelling (f a) := by
  rw [← List.append_nil spelling]
  exact h.bind (reads_pure (f a))

theorem Reads.map {read : Reader α} {spelling : List UInt8} {a : α} (h : read.Reads spelling a)
    (f : α → β) : (f <$> read).Reads spelling (f a) := by
  rw [map_eq_pure_bind]
  exact h.bind_pure f

theorem Reads.reading {read : Reader α} {spelling : List UInt8} {a : α} (h : read.Reads spelling a)
    (context : Context) : (Reader.reading context read).Reads spelling a :=
  fun offset rest => during_eq_ok.mpr (h offset rest)

/-- The spelling may be written another way. -/
theorem Reads.of_eq {read : Reader α} {spelling spelling' : List UInt8} {a : α}
    (h : read.Reads spelling a) (heq : spelling' = spelling) : read.Reads spelling' a :=
  heq ▸ h

theorem Reads.apply_start {read : Reader α} {spelling : List UInt8} {a : α}
    (h : read.Reads spelling a) : read (.start spelling) = .ok (a, ⟨spelling.length, []⟩) := by
  have hread := h 0 []
  rwa [List.append_nil, Nat.zero_add] at hread

/-! ## Bytes and numbers -/

theorem reads_bytes {count : Nat} {taken : List UInt8} (h : taken.length = count) :
    (bytes count).Reads taken taken := by
  intro offset rest
  subst h
  simp [bytes]

theorem reads_number {count : Nat} {digits : List UInt8} (h : digits.length = count) :
    (number count).Reads digits (bigEndian 0 digits) :=
  (reads_bytes h).bind_pure (bigEndian 0)

theorem reads_u8 (b : UInt8) : u8.Reads [b] b := by
  have h : ((bigEndian 0 [b]).toUInt8) = b := by simp [bigEndian]
  have hread : u8.Reads [b] (bigEndian 0 [b]).toUInt8 :=
    (reads_number (show [b].length = 1 from rfl)).bind_pure Nat.toUInt8
  rwa [h] at hread

theorem bigEndian_ofUInt16 (n : UInt16) : bigEndian 0 (ofUInt16 n) = n.toNat := by
  have hn := n.toNat_lt
  simp only [ofUInt16, bigEndian, UInt16.toNat_toUInt8, UInt16.toNat_shiftRight,
    Nat.shiftRight_eq_div_pow, show UInt16.toNat 8 % 16 = 8 from rfl]
  omega

theorem bigEndian_ofUInt32 (n : UInt32) : bigEndian 0 (ofUInt32 n) = n.toNat := by
  have hn := n.toNat_lt
  simp only [ofUInt32, bigEndian, UInt32.toNat_toUInt8, UInt32.toNat_shiftRight,
    Nat.shiftRight_eq_div_pow, show UInt32.toNat 24 % 32 = 24 from rfl,
    show UInt32.toNat 16 % 32 = 16 from rfl, show UInt32.toNat 8 % 32 = 8 from rfl]
  omega

theorem reads_number_ofUInt32 (n : UInt32) : (number 4).Reads (ofUInt32 n) n.toNat := by
  rw [← bigEndian_ofUInt32 n]
  exact reads_number rfl

theorem reads_u16 (n : UInt16) : u16.Reads (ofUInt16 n) n := by
  have hread : u16.Reads (ofUInt16 n) (bigEndian 0 (ofUInt16 n)).toUInt16 :=
    (reads_number (show (ofUInt16 n).length = 2 from rfl)).bind_pure Nat.toUInt16
  rwa [bigEndian_ofUInt16, Nat.toUInt16_eq, UInt16.ofNat_toNat] at hread

theorem reads_u32 (n : UInt32) : u32.Reads (ofUInt32 n) n := by
  have hread : u32.Reads (ofUInt32 n) n.toNat.toUInt32 :=
    (reads_number_ofUInt32 n).bind_pure Nat.toUInt32
  rwa [Nat.toUInt32_eq, UInt32.ofNat_toNat] at hread

theorem reads_u64 (n : UInt64) : u64.Reads (ofUInt64 n) n := by
  have hjoined : ((n >>> 32).toUInt32.toNat * 0x100000000 + n.toUInt32.toNat).toUInt64 = n := by
    apply UInt64.toNat_inj.mp
    have hn := n.toNat_lt
    simp only [UInt64.toNat_toUInt32, UInt64.toNat_shiftRight, Nat.shiftRight_eq_div_pow,
      Nat.toUInt64_eq, UInt64.toNat_ofNat', show UInt64.toNat 32 % 64 = 32 from rfl]
    omega
  have hread : u64.Reads (ofUInt64 n)
      ((n >>> 32).toUInt32.toNat * 0x100000000 + n.toUInt32.toNat).toUInt64 :=
    (reads_number_ofUInt32 _).bind <| (reads_number_ofUInt32 _).bind_pure fun low =>
      ((n >>> 32).toUInt32.toNat * 0x100000000 + low).toUInt64
  rwa [hjoined] at hread

theorem reads_i8 (n : Int8) : i8.Reads [n.toUInt8] n := by
  have hread : i8.Reads [n.toUInt8] n.toUInt8.toInt8 := (reads_u8 n.toUInt8).bind_pure UInt8.toInt8
  rwa [Int8.toInt8_toUInt8] at hread

theorem reads_i16 (n : Int16) : i16.Reads (ofInt16 n) n := by
  have hread : i16.Reads (ofInt16 n) n.toUInt16.toInt16 :=
    (reads_u16 n.toUInt16).bind_pure UInt16.toInt16
  rwa [Int16.toInt16_toUInt16] at hread

theorem reads_i32 (n : Int32) : i32.Reads (ofInt32 n) n := by
  have hread : i32.Reads (ofInt32 n) n.toUInt32.toInt32 :=
    (reads_u32 n.toUInt32).bind_pure UInt32.toInt32
  rwa [Int32.toInt32_toUInt32] at hread

/-- A look-up that succeeds reads nothing. -/
theorem reads_lift {result : Except Fault α} {a : α} (h : result = .ok a) : (lift result).Reads [] a := by
  subst h
  exact reads_pure a

/-! ## Tables -/

theorem reads_times {read : Reader α} {items : List α} {parts : List (List UInt8)}
    (h : List.Forall₂ (fun a part => read.Reads part a) items parts) :
    (times items.length read).Reads parts.flatten items := by
  have hfrom : ∀ done, (timesFrom read done items.length).Reads parts.flatten (done.reverse ++ items) := by
    induction h with
    | nil =>
      intro done
      rw [List.append_nil]
      exact reads_pure _
    | cons hitem _ ih =>
      rename_i a part items parts _
      intro done
      have hrest := ih (a :: done)
      rw [List.reverse_cons, List.append_assoc, List.singleton_append] at hrest
      exact hitem.bind hrest
  exact hfrom []

/-- A table is read back item by item behind its length. -/
theorem reads_table_parts {read : Reader α} {items : List α} {parts : List (List UInt8)}
    (hlength : items.length ≤ 65535)
    (h : List.Forall₂ (fun a part => read.Reads part a) items parts) :
    (Reader.table read).Reads (ofUInt16 items.length.toUInt16 ++ parts.flatten) items := by
  have hcount : items.length.toUInt16.toNat = items.length := by
    rw [Nat.toUInt16_eq, UInt16.toNat_ofNat']
    omega
  refine (reads_u16 _).bind ?_
  rw [hcount]
  exact reads_times h

/-- A table is read back as what its items are read as. -/
theorem reads_table_map {read : Reader β} {items : List α} {write : α → Except Fault (List UInt8)}
    {f : α → β} {spelling : List UInt8} (htable : Bytes.table items write = .ok spelling)
    (h : ∀ a part, write a = .ok part → read.Reads part (f a)) :
    (Reader.table read).Reads spelling (items.map f) := by
  obtain ⟨hlength, parts, hparts, rfl⟩ := table_eq_ok htable
  rw [← List.length_map f] at hlength ⊢
  refine reads_table_parts hlength ?_
  rw [List.forall₂_map_left_iff]
  exact hparts.imp fun a part => h a part

/-- A table is read back if its items are. -/
theorem reads_table {read : Reader α} {items : List α} {write : α → Except Fault (List UInt8)}
    {spelling : List UInt8} (htable : Bytes.table items write = .ok spelling)
    (h : ∀ a part, write a = .ok part → read.Reads part a) :
    (Reader.table read).Reads spelling items := by
  have hread := reads_table_map (f := id) htable h
  rwa [List.map_id] at hread

end Reader

end DirectCall.Bytes
