import DirectCall.ClassFile.Format
import DirectCall.Proofs.ConstantPool.Layout

/-!
# Class files are read back

What is written of a class file with a pool that is laid out entry by entry is read back as the same
class file (`ClassFile.parse_toBytes`); so is a code attribute (`CodeAttribute.parse_toBytes`). That the
pool is small enough follows from its being written (`parse_written`).
-/

namespace DirectCall

open Bytes Bytes.Reader

/-! ## Attributes and members -/

theorem Attribute.reads_write {a : Attribute} {spelling : List UInt8} (h : a.write = .ok spelling) :
    Attribute.read.Reads spelling a := by
  unfold write at h
  split_ifs at h with hlength
  cases h
  have hcount : a.info.length = a.info.length.toUInt32.toNat := by
    rw [Nat.toUInt32_eq, UInt32.toNat_ofNat']
    omega
  refine Reads.of_eq (?_ : Attribute.read.Reads (ofUInt16 a.nameIndex ++
    (ofUInt32 a.info.length.toUInt32 ++ a.info)) a) (List.append_assoc _ _ _)
  exact (reads_u16 _).bind <| (reads_number_ofUInt32 _).bind <|
    (reads_bytes hcount).bind_pure (Attribute.mk a.nameIndex)

theorem Member.reads_write {m : Member} {spelling : List UInt8} (h : m.write = .ok spelling) :
    Member.read.Reads spelling m := by
  obtain ⟨attributes, hattributes, h⟩ := bind_eq_ok.mp h
  cases h
  refine Reads.of_eq (?_ : Member.read.Reads (ofUInt16 m.access ++ (ofUInt16 m.nameIndex ++
    (ofUInt16 m.descriptorIndex ++ attributes))) m) (by simp only [List.append_assoc])
  exact (reads_u16 _).bind <| (reads_u16 _).bind <| (reads_u16 _).bind <|
    (reads_table hattributes fun _ _ => Attribute.reads_write).bind_pure
      (Member.mk m.access m.nameIndex m.descriptorIndex)

theorem HandlerRange.reads_write (h : HandlerRange) : HandlerRange.read.Reads h.write h := by
  refine Reads.of_eq (?_ : HandlerRange.read.Reads (ofUInt16 h.start ++ (ofUInt16 h.stop ++
    (ofUInt16 h.handler ++ ofUInt16 h.catchType))) h) (by simp only [write, List.append_assoc])
  exact (reads_u16 _).bind <| (reads_u16 _).bind <| (reads_u16 _).bind <|
    (reads_u16 _).bind_pure (HandlerRange.mk h.start h.stop h.handler)

/-! ## Code -/

theorem CodeAttribute.reads_toBytes {c : CodeAttribute} {spelling : List UInt8}
    (h : c.toBytes = .ok spelling) : CodeAttribute.read.Reads spelling c := by
  unfold toBytes at h
  split_ifs at h with hlength
  obtain ⟨handlers, hhandlers, h⟩ := bind_eq_ok.mp h
  obtain ⟨attributes, hattributes, h⟩ := bind_eq_ok.mp h
  cases h
  have hcount : c.code.length = c.code.length.toUInt32.toNat := by
    rw [Nat.toUInt32_eq, UInt32.toNat_ofNat']
    omega
  refine Reads.of_eq (?_ : CodeAttribute.read.Reads (ofUInt16 c.maxStack ++ (ofUInt16 c.maxLocals ++
    (ofUInt32 c.code.length.toUInt32 ++ (c.code ++ (handlers ++ attributes))))) c)
    (by simp only [List.append_assoc])
  refine (reads_u16 _).bind <| (reads_u16 _).bind <| (reads_number_ofUInt32 _).bind <|
    (reads_bytes hcount).bind <| (reads_table hhandlers fun handler part hpart => ?_).bind <|
    (reads_table hattributes fun _ _ => Attribute.reads_write).bind_pure
      (CodeAttribute.mk c.maxStack c.maxLocals c.code c.handlers)
  cases hpart
  exact handler.reads_write

/-- A code attribute is read back from its bytes. -/
theorem CodeAttribute.parse_toBytes {c : CodeAttribute} {info : List UInt8} (h : c.toBytes = .ok info) :
    CodeAttribute.parse info = .ok c := by
  rw [parse, Reader.of, (reads_toBytes h).apply_start]
  rfl

/-! ## Class files -/

namespace ClassFile

/-- The pool of a class file that was read is laid out entry by entry. -/
theorem pool_laidOut {data : List UInt8} {c : ClassFile} (h : ClassFile.parse data = .ok c) :
    c.pool.LaidOut := by
  obtain ⟨⟨c', last⟩, hread, h⟩ := bind_eq_ok.mp h
  dsimp only at h
  split_ifs at h
  · cases h
    unfold ClassFile.read at hread
    obtain ⟨found, _, _, hread⟩ := bind_apply_eq_ok.mp hread
    dsimp only at hread
    split_ifs at hread
    · cases hread
    · obtain ⟨minor, _, _, hread⟩ := bind_apply_eq_ok.mp hread
      obtain ⟨major, _, _, hread⟩ := bind_apply_eq_ok.mp hread
      obtain ⟨pool, _, hpool, hread⟩ := bind_apply_eq_ok.mp hread
      have hlaid := ConstantPool.read_laidOut (during_eq_ok.mp hpool)
      obtain ⟨access, _, _, hread⟩ := bind_apply_eq_ok.mp hread
      obtain ⟨thisClass, _, _, hread⟩ := bind_apply_eq_ok.mp hread
      obtain ⟨superClass, _, _, hread⟩ := bind_apply_eq_ok.mp hread
      obtain ⟨interfaces, _, _, hread⟩ := bind_apply_eq_ok.mp hread
      obtain ⟨fields, _, _, hread⟩ := bind_apply_eq_ok.mp hread
      obtain ⟨methods, _, _, hread⟩ := bind_apply_eq_ok.mp hread
      obtain ⟨attributes, _, _, hread⟩ := bind_apply_eq_ok.mp hread
      cases hread
      exact hlaid

theorem reads_toBytes {c : ClassFile} (hpool : c.pool.LaidOut) {spelling : List UInt8}
    (h : c.toBytes = .ok spelling) : ClassFile.read.Reads spelling c := by
  obtain ⟨pool, hpoolBytes, h⟩ := bind_eq_ok.mp h
  obtain ⟨interfaces, hinterfaces, h⟩ := bind_eq_ok.mp h
  obtain ⟨fields, hfields, h⟩ := bind_eq_ok.mp h
  obtain ⟨methods, hmethods, h⟩ := bind_eq_ok.mp h
  obtain ⟨attributes, hattributes, h⟩ := bind_eq_ok.mp h
  cases h
  refine Reads.of_eq (?_ : ClassFile.read.Reads (ofUInt32 magic ++ (ofUInt16 c.minorVersion ++
    (ofUInt16 c.majorVersion ++ (pool ++ (ofUInt16 c.access ++ (ofUInt16 c.thisClass ++
    (ofUInt16 c.superClass ++ (interfaces ++ (fields ++ (methods ++ attributes)))))))))) c)
    (by simp only [List.append_assoc])
  refine ((reads_u32 magic).reading _).bind ?_
  rw [if_neg (not_not.mpr rfl)]
  refine (reads_u16 _).bind <| (reads_u16 _).bind <|
    ((ConstantPool.reads_write hpool hpoolBytes).reading _).bind <| (reads_u16 _).bind <|
    (reads_u16 _).bind <| (reads_u16 _).bind <| (reads_table hinterfaces ?_).bind <|
    ((reads_table hfields fun _ _ => Member.reads_write).reading _).bind <|
    ((reads_table hmethods fun _ _ => Member.reads_write).reading _).bind <|
    ((reads_table hattributes fun _ _ => Attribute.reads_write).reading _).bind_pure
      (ClassFile.mk c.minorVersion c.majorVersion c.pool c.access c.thisClass c.superClass c.interfaces
        c.fields c.methods)
  intro index part hpart
  cases hpart
  exact reads_u16 index

/-- A class file is read back from its bytes. -/
theorem parse_toBytes {c : ClassFile} (hpool : c.pool.LaidOut) {data : List UInt8}
    (h : c.toBytes = .ok data) : ClassFile.parse data = .ok c := by
  rw [parse, (reads_toBytes hpool h).apply_start]
  rfl

theorem pool_size_le {c : ClassFile} {data : List UInt8} (h : c.toBytes = .ok data) :
    c.pool.size ≤ 65535 := by
  obtain ⟨_, hpool, _⟩ := bind_eq_ok.mp h
  exact ConstantPool.size_le_of_write hpool

end ClassFile

/-- What can be written is read back: a class file that has the slots of its pool in order, and any code
attribute. -/
theorem parse_written :
    (∀ (c : ClassFile) (data : List UInt8), c.pool.ProperSlots → c.toBytes = .ok data →
      ClassFile.parse data = .ok c) ∧
    ∀ (c : CodeAttribute) (info : List UInt8), c.toBytes = .ok info → CodeAttribute.parse info = .ok c := by
  constructor
  · intro c data hproper h
    have hpool : c.pool.LaidOut := ConstantPool.laidOut_iff.mpr ⟨hproper, ClassFile.pool_size_le h⟩
    exact ClassFile.parse_toBytes hpool h
  · intro c info h
    exact CodeAttribute.parse_toBytes h

/-- A class with a long, a double and a float that are no numbers, and a text with the character zero. -/
def numbersClass : ClassFile :=
  ⟨0, 52, ⟨#[.unusable, .classRef 2, .utf8 "A\x00\u0800", .long (-1), .unusable,
    .double 0x7FF8000000000001, .unusable, .float 0x7FC00001]⟩, 0x21, 1, 0, [1],
    [⟨0x18, 2, 2, [⟨2, [0, 3]⟩]⟩], [⟨0x401, 2, 2, []⟩], [⟨2, []⟩]⟩

/-- A return that is protected by a handler, with an attribute. -/
def returnCode : CodeAttribute := ⟨2, 1, [0xB1], [⟨0, 1, 0, 1⟩], [⟨2, [7]⟩]⟩

theorem parse_written_numbers : numbersClass.pool.ProperSlots ∧
    (∃ data, numbersClass.toBytes = .ok data ∧ ClassFile.parse data = .ok numbersClass) ∧
    ∃ info, returnCode.toBytes = .ok info ∧ CodeAttribute.parse info = .ok returnCode := by
  have hproper : numbersClass.pool.ProperSlots := by
    refine (ConstantPool.laidOut_iff.mp ⟨⟨[.classRef 2, .utf8 "A\x00\u0800", .long (-1),
      .double 0x7FF8000000000001, .float 0x7FC00001], by decide, rfl⟩, by decide⟩).1
  exact ⟨hproper, ⟨_, rfl, parse_written.1 numbersClass _ hproper rfl⟩,
    ⟨_, rfl, parse_written.2 returnCode _ rfl⟩⟩

end DirectCall
