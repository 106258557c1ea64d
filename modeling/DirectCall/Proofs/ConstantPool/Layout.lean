import DirectCall.ConstantPool.Format
import DirectCall.Proofs.Bytes.ReadBack
import DirectCall.Proofs.Text.ModifiedUtf8
import Mathlib.Algebra.BigOperators.Group.List.Basic

/-!
# Slots of a constant pool

In a pool that was read, every slot behind the first belongs to an entry (`read_laidOut`). A pool laid
out like this is read back from what is written (`reads_write`). Slot by slot it says which slots are
unusable (`laidOut_iff`).
-/

namespace DirectCall.ConstantPool

open Bytes Bytes.Reader

/-- Slot 0 is unusable, and behind it stand the slots of usable entries, one entry after the other. An
index reaches all of them. -/
structure LaidOut (pool : ConstantPool) : Prop where
  slots : ∃ es : List Entry, (∀ e ∈ es, e ≠ .unusable) ∧
    pool.entries.toList = .unusable :: es.flatMap Entry.slots
  small : pool.size ≤ 65535

theorem laidOut_empty : empty.LaidOut := ⟨⟨[], by simp, rfl⟩, by decide⟩

/-! ## Slot by slot -/

/-- Slot 0 is unusable, and so is exactly one slot behind every long and double; no other slot is. -/
structure ProperSlots (pool : ConstantPool) : Prop where
  first : pool.entries[0]? = some .unusable
  behind : ∀ (i : Nat) (e : Entry), pool.entries[i]? = some e → (pool.entries[i + 1]? = some .unusable ↔ e.isWide)

/-- The slots behind `previous` are unusable where the entry before takes two slots. -/
def Spaced (previous : Entry) (slots : List Entry) : Prop :=
  ∀ (i : Nat) (e : Entry), (previous :: slots)[i]? = some e → (slots[i]? = some .unusable ↔ e.isWide)

theorem spaced_nil {previous : Entry} : Spaced previous [] ↔ ¬ previous.isWide := by
  constructor
  · intro h hwide
    exact absurd ((h 0 previous rfl).mpr hwide) nofun
  · intro h i e he
    cases i with
    | zero =>
      cases he
      exact iff_of_false nofun h
    | succ i => exact absurd he nofun

theorem spaced_cons {previous e : Entry} {slots : List Entry} :
    Spaced previous (e :: slots) ↔ (e = .unusable ↔ previous.isWide) ∧ Spaced e slots := by
  constructor
  · intro h
    have hfirst := h 0 previous rfl
    rw [List.getElem?_cons_zero, Option.some_inj] at hfirst
    exact ⟨hfirst, fun i => h (i + 1)⟩
  · rintro ⟨hfirst, h⟩ i found hfound
    cases i with
    | zero =>
      cases hfound
      rw [List.getElem?_cons_zero, Option.some_inj, hfirst]
    | succ i => exact h i found hfound

theorem Entry.slots_eq (e : Entry) : e.slots = e :: if e.isWide then [.unusable] else [] := by
  unfold slots
  split_ifs <;> rfl

theorem spaced_flatMap {es : List Entry} (husable : ∀ e ∈ es, e ≠ .unusable) {previous : Entry}
    (h : ¬ previous.isWide) : Spaced previous (es.flatMap Entry.slots) := by
  induction es generalizing previous with
  | nil => exact spaced_nil.mpr h
  | cons e es ih =>
    have husable' : ∀ e' ∈ es, e' ≠ .unusable := fun e' he' => husable e' (List.mem_cons_of_mem e he')
    rw [List.flatMap_cons, Entry.slots_eq, List.cons_append, spaced_cons]
    refine ⟨iff_of_false (husable e List.mem_cons_self) h, ?_⟩
    split_ifs with hwide
    · exact spaced_cons.mpr ⟨iff_of_true rfl hwide, ih husable' (by decide)⟩
    · exact ih husable' hwide

/-- Behind `previous` stands its second slot, if it has one, and then entry after entry. -/
theorem Spaced.exists_flatMap {slots : List Entry} {previous : Entry} (h : Spaced previous slots) :
    ∃ es : List Entry, (∀ e ∈ es, e ≠ .unusable) ∧
      slots = (if previous.isWide then [.unusable] else []) ++ es.flatMap Entry.slots := by
  induction slots generalizing previous with
  | nil =>
    rw [if_neg (spaced_nil.mp h)]
    exact ⟨[], by simp, rfl⟩
  | cons e slots ih =>
    obtain ⟨hfirst, hrest⟩ := spaced_cons.mp h
    obtain ⟨es, husable, hes⟩ := ih hrest
    by_cases hwide : previous.isWide
    · obtain rfl := hfirst.mpr hwide
      rw [if_pos hwide]
      exact ⟨es, husable, congrArg _ hes⟩
    · refine ⟨e :: es, List.forall_mem_cons.mpr ⟨mt hfirst.mp hwide, husable⟩, ?_⟩
      rw [if_neg hwide, List.flatMap_cons, Entry.slots_eq, hes]
      rfl

theorem properSlots_iff {pool : ConstantPool} {slots : List Entry}
    (h : pool.entries.toList = .unusable :: slots) : pool.ProperSlots ↔ Spaced .unusable slots := by
  constructor
  · rintro ⟨_, hbehind⟩ i e he
    have hslots := hbehind i e
    rw [← Array.getElem?_toList, ← Array.getElem?_toList, h] at hslots
    exact hslots he
  · intro hspaced
    constructor
    · rw [← Array.getElem?_toList, h]
      rfl
    · intro i e he
      rw [← Array.getElem?_toList, h] at he ⊢
      exact hspaced i e he

/-- Entry after entry or slot by slot. -/
theorem laidOut_iff {pool : ConstantPool} :
    pool.LaidOut ↔ pool.ProperSlots ∧ pool.size ≤ 65535 := by
  constructor
  · rintro ⟨⟨es, husable, hes⟩, hsmall⟩
    exact ⟨(properSlots_iff hes).mpr (spaced_flatMap husable (by decide)), hsmall⟩
  · rintro ⟨hproper, hsmall⟩
    obtain ⟨slots, hslots⟩ : ∃ slots, pool.entries.toList = .unusable :: slots := by
      have hfirst := hproper.first
      rw [← Array.getElem?_toList] at hfirst
      exact List.head?_eq_some_iff.mp (List.head?_eq_getElem? ▸ hfirst)
    obtain ⟨es, husable, hes⟩ := ((properSlots_iff hslots).mp hproper).exists_flatMap
    exact ⟨⟨es, husable, by rw [hslots, hes]; rfl⟩, hsmall⟩

/-! ## Reading -/

theorem advances_u64 : u64.Advances :=
  (advances_number 4).bind fun _ => (advances_number 4).bind fun _ => gives_pure trivial

/-- Turns what was read into an entry that can be used. -/
theorem gives_usable {α : Type} {read : Reader α} {make : α → Entry} (h : read.Advances)
    (hmake : ∀ a, make a ≠ .unusable) : (make <$> read).Gives (· ≠ .unusable) := by
  rw [map_eq_pure_bind]
  exact h.bind fun a => gives_pure (hmake a)

theorem gives_pair {make : UInt16 → UInt16 → Entry} (hmake : ∀ a b, make a b ≠ .unusable) :
    (pair make).Gives (· ≠ .unusable) :=
  advances_u16.bind fun a => advances_u16.bind fun b => gives_pure (hmake a b)

theorem gives_readUtf8 (index : Nat) : (readUtf8 index).Gives (· ≠ .unusable) := by
  refine advances_u16.bind fun length => (advances_bytes length.toNat).bind fun spelling => ?_
  split
  · exact gives_pure nofun
  · exact gives_throw _

theorem gives_readEntry (index : Nat) (tag : UInt8) : (readEntry index tag).Gives (· ≠ .unusable) := by
  unfold readEntry
  split
  case h_1 => exact gives_readUtf8 index
  case h_2 => exact gives_usable advances_i32 nofun
  case h_3 => exact gives_usable advances_u32 nofun
  case h_4 => exact advances_u64.bind fun _ => gives_pure nofun
  case h_5 => exact gives_usable advances_u64 nofun
  case h_6 => exact gives_usable advances_u16 nofun
  case h_7 => exact gives_usable advances_u16 nofun
  case h_8 => exact gives_pair nofun
  case h_9 => exact gives_pair nofun
  case h_10 => exact gives_pair nofun
  case h_11 => exact gives_pair nofun
  case h_12 => exact advances_u8.bind fun _ => advances_u16.bind fun _ => gives_pure nofun
  case h_13 => exact gives_usable advances_u16 nofun
  case h_14 => exact gives_pair nofun
  case h_15 => exact gives_pair nofun
  case h_16 => exact gives_usable advances_u16 nofun
  case h_17 => exact gives_usable advances_u16 nofun
  case h_18 => exact gives_throw _

theorem gives_readEntries (count missing : Nat) {entries : Array Entry} (es : List Entry)
    (husable : ∀ e ∈ es, e ≠ .unusable) (h : entries.toList = .unusable :: es.flatMap Entry.slots) :
    (readEntries count missing entries).Gives fun entries' =>
      ∃ es' : List Entry, (∀ e ∈ es', e ≠ .unusable) ∧
        entries'.toList = .unusable :: es'.flatMap Entry.slots := by
  induction missing generalizing entries es with
  | zero => exact gives_pure ⟨es, husable, h⟩
  | succ missing ih =>
    unfold readEntries
    refine Gives.ite ?_ (gives_pure ⟨es, husable, h⟩)
    refine advances_u8.bind fun tag => (gives_readEntry _ tag).bind fun entry hentry => ?_
    refine ih (es ++ [entry]) ?_ ?_
    · intro e he
      rcases List.mem_append.mp he with he | he
      · exact husable e he
      · exact List.mem_singleton.mp he ▸ hentry
    · simp [h]

/-- A pool that was read is laid out entry by entry. -/
theorem read_laidOut {c c' : Cursor} {pool : ConstantPool} (h : read c = .ok (pool, c')) :
    pool.LaidOut := by
  obtain ⟨count, middle, _, h⟩ := bind_apply_eq_ok.mp h
  obtain ⟨entries, last, hentries, h⟩ := bind_apply_eq_ok.mp h
  obtain ⟨_, es, husable, hes⟩ :=
    gives_readEntries count.toNat count.toNat [] (by simp) rfl middle entries last hentries
  split_ifs at h with hsize
  · cases h
    refine ⟨⟨es, husable, hes⟩, ?_⟩
    have hcount := count.toNat_lt
    show entries.size ≤ 65535
    omega
  · cases h

/-! ## Reading back -/

theorem reads_pair {make : UInt16 → UInt16 → Entry} (a b : UInt16) :
    (pair make).Reads (ofUInt16 a ++ ofUInt16 b) (make a b) :=
  (reads_u16 a).bind ((reads_u16 b).bind_pure (make a))

theorem reads_utf8 {index : Nat} {text : String} {spelling : List UInt8}
    (h : (Entry.utf8 text).operands = .ok spelling) :
    (readUtf8 index).Reads spelling (.utf8 text) := by
  unfold Entry.operands at h
  dsimp only at h
  split_ifs at h with hlength
  cases h
  have hcount : (Text.ModifiedUtf8.encode text).length =
      (Text.ModifiedUtf8.encode text).length.toUInt16.toNat := by
    rw [Nat.toUInt16_eq, UInt16.toNat_ofNat']
    omega
  refine (reads_u16 _).bind ?_
  rw [← List.append_nil (Text.ModifiedUtf8.encode text)]
  refine (reads_bytes (by rwa [List.append_nil])).bind ?_
  simp only [Text.ModifiedUtf8.decode_of_encode]
  exact reads_pure _

theorem reads_long (value : Int64) :
    (readEntry index 5).Reads (ofInt64 value) (.long value) := by
  have hread := (reads_u64 value.toUInt64).bind_pure fun n => Entry.long n.toInt64
  rwa [Int64.toInt64_toUInt64] at hread

/-- The operands of a usable entry are read back behind its tag. -/
theorem reads_operands {e : Entry} {spelling : List UInt8} (husable : e ≠ .unusable)
    (h : e.operands = .ok spelling) (index : Nat) : (readEntry index e.tag).Reads spelling e := by
  cases e with
  | unusable => exact absurd rfl husable
  | utf8 text => exact reads_utf8 h
  | int value =>
    cases h
    exact (reads_i32 value).map Entry.int
  | float bits =>
    cases h
    exact (reads_u32 bits).map Entry.float
  | long value =>
    cases h
    exact reads_long value
  | double bits =>
    cases h
    exact (reads_u64 bits).map Entry.double
  | classRef name =>
    cases h
    exact (reads_u16 name).map Entry.classRef
  | string text =>
    cases h
    exact (reads_u16 text).map Entry.string
  | fieldRef a b =>
    cases h
    exact reads_pair a b
  | methodRef a b =>
    cases h
    exact reads_pair a b
  | interfaceMethodRef a b =>
    cases h
    exact reads_pair a b
  | nameAndType a b =>
    cases h
    exact reads_pair a b
  | methodHandle kind reference =>
    cases h
    exact (reads_u8 kind).bind ((reads_u16 reference).bind_pure (Entry.methodHandle kind))
  | methodType descriptor =>
    cases h
    exact (reads_u16 descriptor).map Entry.methodType
  | dynamic a b =>
    cases h
    exact reads_pair a b
  | invokeDynamic a b =>
    cases h
    exact reads_pair a b
  | module name =>
    cases h
    exact (reads_u16 name).map Entry.module
  | package name =>
    cases h
    exact (reads_u16 name).map Entry.package

theorem Entry.slots_pos (e : Entry) : 0 < e.slots.length := by
  unfold slots
  split_ifs <;> simp

theorem write_usable {e : Entry} {spelling : List UInt8} (husable : e ≠ .unusable)
    (h : e.write = .ok spelling) : ∃ operands, e.operands = .ok operands ∧ spelling = e.tag :: operands := by
  rw [Entry.write, if_neg husable] at h
  obtain ⟨operands, hoperands, h⟩ := bind_eq_ok.mp h
  cases h
  exact ⟨operands, hoperands, rfl⟩

theorem reads_entries {es : List Entry} {parts : List (List UInt8)} (husable : ∀ e ∈ es, e ≠ .unusable)
    (h : List.Forall₂ (fun e part => e.write = .ok part) es parts) {count : Nat} (missing : Nat)
    (entries : Array Entry) (hcount : entries.size + (es.flatMap Entry.slots).length = count)
    (hmissing : es.length ≤ missing) :
    (readEntries count missing entries).Reads parts.flatten
      (entries ++ (es.flatMap Entry.slots).toArray) := by
  induction h generalizing entries missing with
  | nil =>
    have hfull : ¬ entries.size < count := by
      rw [List.flatMap_nil, List.length_nil] at hcount
      omega
    rw [List.flatMap_nil, Array.append_empty]
    cases missing with
    | zero => exact reads_pure entries
    | succ missing =>
      rw [readEntries, if_neg hfull]
      exact reads_pure entries
  | cons hwrite _ ih =>
    rename_i e part es parts _
    have hslots := e.slots_pos
    rw [List.flatMap_cons, List.length_append] at hcount
    obtain ⟨missing, rfl⟩ : ∃ n, missing = n + 1 := ⟨missing - 1, by simp at hmissing; omega⟩
    obtain ⟨operands, hoperands, rfl⟩ := write_usable (husable e (by simp)) hwrite
    have hsize : (entries ++ e.slots.toArray).size = entries.size + e.slots.length := by simp
    have hrest := ih (fun e' he' => husable e' (by simp [he'])) missing (entries ++ e.slots.toArray)
      (by omega) (by simpa using hmissing)
    rw [readEntries, if_pos (by omega), List.flatMap_cons, List.flatten_cons,
      show e.tag :: operands = [e.tag] ++ operands from rfl, List.append_assoc]
    refine (reads_u8 e.tag).bind ((reads_operands (husable e (by simp)) hoperands _).bind ?_)
    rw [show (e.slots ++ es.flatMap Entry.slots).toArray =
        e.slots.toArray ++ (es.flatMap Entry.slots).toArray by simp, ← Array.append_assoc]
    exact hrest

/-- The second slots of wide entries are not written. -/
theorem write_slots {es : List Entry} {parts : List (List UInt8)}
    (h : List.Forall₂ (fun e part => e.write = .ok part) (es.flatMap Entry.slots) parts) :
    ∃ parts', List.Forall₂ (fun e part => e.write = .ok part) es parts' ∧
      parts.flatten = parts'.flatten := by
  induction es generalizing parts with
  | nil =>
    cases h
    exact ⟨[], .nil, rfl⟩
  | cons e es ih =>
    have hsplit : ∃ part rest, e.write = .ok part ∧
        List.Forall₂ (fun e part => e.write = .ok part) (es.flatMap Entry.slots) rest ∧
        parts.flatten = part ++ rest.flatten := by
      by_cases hwide : e.isWide
      · rw [List.flatMap_cons, Entry.slots, if_pos hwide] at h
        cases h with
        | cons hpart h =>
          cases h with
          | cons hsecond hrest =>
            cases hsecond
            exact ⟨_, _, hpart, hrest, rfl⟩
      · rw [List.flatMap_cons, Entry.slots, if_neg hwide] at h
        cases h with
        | cons hpart hrest => exact ⟨_, _, hpart, hrest, rfl⟩
    obtain ⟨part, rest, hpart, hrest, hflatten⟩ := hsplit
    obtain ⟨parts', hparts', hflatten'⟩ := ih hrest
    exact ⟨part :: parts', .cons hpart hparts', by rw [hflatten, hflatten', List.flatten_cons]⟩

theorem size_le_of_write {pool : ConstantPool} {spelling : List UInt8} (h : pool.write = .ok spelling) :
    pool.size ≤ 65535 := by
  unfold write at h
  split_ifs at h with hlarge
  omega

/-- A pool that is laid out entry by entry is read back from its bytes. -/
theorem reads_write {pool : ConstantPool} (hpool : pool.LaidOut) {spelling : List UInt8}
    (h : pool.write = .ok spelling) : read.Reads spelling pool := by
  obtain ⟨⟨es, husable, hes⟩, hsmall⟩ := hpool
  rw [write, if_neg (by omega)] at h
  obtain ⟨content, hcontent, h⟩ := bind_eq_ok.mp h
  cases h
  obtain ⟨parts, hparts, rfl⟩ := concat_map_eq_ok hcontent
  obtain ⟨parts', hparts', hflatten⟩ : ∃ parts',
      List.Forall₂ (fun e part => e.write = .ok part) es parts' ∧ parts.flatten = parts'.flatten := by
    rw [hes] at hparts
    cases hparts with
    | cons hfirst hparts =>
      cases hfirst
      obtain ⟨parts', hparts', hflatten⟩ := write_slots hparts
      exact ⟨parts', hparts', by rw [List.flatten_cons, List.nil_append, hflatten]⟩
  have hsize : pool.size = 1 + (es.flatMap Entry.slots).length := by
    rw [size, ← Array.length_toList, hes, List.length_cons, Nat.add_comm]
  have hcount : pool.size.toUInt16.toNat = pool.size := by
    rw [Nat.toUInt16_eq, UInt16.toNat_ofNat']
    omega
  have hlength : es.length ≤ (es.flatMap Entry.slots).length := by
    rw [List.length_flatMap, ← List.length_map (·.slots.length)]
    refine List.length_le_sum_of_one_le _ fun n hn => ?_
    obtain ⟨e, _, rfl⟩ := List.mem_map.mp hn
    exact e.slots_pos
  have hentries := reads_entries husable hparts' pool.size #[.unusable]
    (show 1 + (es.flatMap Entry.slots).length = pool.size from hsize.symm) (by omega)
  have hback : #[Entry.unusable] ++ (es.flatMap Entry.slots).toArray = pool.entries := by
    apply Array.toList_inj.mp
    simp [hes]
  rw [hback] at hentries
  refine (reads_u16 _).bind ?_
  rw [hcount, hflatten, ← List.append_nil parts'.flatten]
  refine hentries.bind ?_
  rw [if_pos (show pool.entries.size = pool.size from rfl)]
  exact reads_pure pool

end DirectCall.ConstantPool
