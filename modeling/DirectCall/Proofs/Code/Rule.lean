import DirectCall.Code.Decode
import Mathlib.Tactic.SplitIfs

/-!
# The rule for an opcode

Families of opcodes do not overlap, so each opcode is read by the rule of its own family, in whatever
order `Code.readInsn` tries them. One equation for each rule.
-/

namespace DirectCall.Code

open Bytes Bytes.Reader

/-- What holds of the 256 bytes holds of every byte. -/
theorem forall_byte {p : UInt8 → Prop} (h : ∀ n : Fin 256, p (UInt8.ofFin n)) (b : UInt8) : p b := by
  have hbyte := h b.toFin
  simpa using hbyte

/-! ## Families -/

theorem not_earlier_of_isLocalAccess : ∀ code : UInt8, isLocalAccess code = true →
    isPlain code = false ∧ code ≠ Opcode.bipush ∧ code ≠ Opcode.sipush ∧ code ≠ Opcode.ldc ∧
      code ≠ Opcode.ldcW ∧ code ≠ Opcode.ldc2W := by
  apply forall_byte
  decide +kernel

theorem not_earlier_of_shortLoad : ∀ code : UInt8,
    Opcode.between Opcode.iload0 Opcode.aload3 code = true →
    isPlain code = false ∧ code ≠ Opcode.bipush ∧ code ≠ Opcode.sipush ∧ code ≠ Opcode.ldc ∧
      code ≠ Opcode.ldcW ∧ code ≠ Opcode.ldc2W ∧ isLocalAccess code = false := by
  apply forall_byte
  decide +kernel

theorem not_earlier_of_shortStore : ∀ code : UInt8,
    Opcode.between Opcode.istore0 Opcode.astore3 code = true →
    isPlain code = false ∧ code ≠ Opcode.bipush ∧ code ≠ Opcode.sipush ∧ code ≠ Opcode.ldc ∧
      code ≠ Opcode.ldcW ∧ code ≠ Opcode.ldc2W ∧ isLocalAccess code = false ∧
      Opcode.between Opcode.iload0 Opcode.aload3 code = false := by
  apply forall_byte
  decide +kernel

/-- No opcode of a local variable, and none that comes before these. -/
structure BehindLocals (code : UInt8) : Prop where
  plain : isPlain code = false
  constants : code ≠ Opcode.bipush ∧ code ≠ Opcode.sipush ∧ code ≠ Opcode.ldc ∧ code ≠ Opcode.ldcW ∧
    code ≠ Opcode.ldc2W
  locals : isLocalAccess code = false ∧ Opcode.between Opcode.iload0 Opcode.aload3 code = false ∧
    Opcode.between Opcode.istore0 Opcode.astore3 code = false ∧ code ≠ Opcode.iinc

/-- No jump or switch, and none that comes before these. -/
structure BehindJumps (code : UInt8) : Prop extends BehindLocals code where
  jumps : isShortJump code = false ∧ code ≠ Opcode.gotoW ∧ code ≠ Opcode.jsrW ∧
    code ≠ Opcode.tableswitch ∧ code ≠ Opcode.lookupswitch

theorem behindLocals_of_isShortJump (code : UInt8) (h : isShortJump code = true) : BehindLocals code := by
  have hfamily : ∀ code : UInt8, isShortJump code = true → isPlain code = false ∧
      (code ≠ Opcode.bipush ∧ code ≠ Opcode.sipush ∧ code ≠ Opcode.ldc ∧ code ≠ Opcode.ldcW ∧
        code ≠ Opcode.ldc2W) ∧
      (isLocalAccess code = false ∧ Opcode.between Opcode.iload0 Opcode.aload3 code = false ∧
        Opcode.between Opcode.istore0 Opcode.astore3 code = false ∧ code ≠ Opcode.iinc) := by
    apply forall_byte
    decide +kernel
  obtain ⟨hplain, hconstants, hlocals⟩ := hfamily code h
  exact ⟨hplain, hconstants, hlocals⟩

/-- Opcodes that name a member, a class or a dynamic call. -/
def isReference (code : UInt8) : Bool :=
  Opcode.between Opcode.getstatic Opcode.invokedynamic code || isTypeInsn code

theorem behindJumps_of_isReference (code : UInt8) (h : isReference code = true) : BehindJumps code := by
  have hfamily : ∀ code : UInt8, isReference code = true → isPlain code = false ∧
      (code ≠ Opcode.bipush ∧ code ≠ Opcode.sipush ∧ code ≠ Opcode.ldc ∧ code ≠ Opcode.ldcW ∧
        code ≠ Opcode.ldc2W) ∧
      (isLocalAccess code = false ∧ Opcode.between Opcode.iload0 Opcode.aload3 code = false ∧
        Opcode.between Opcode.istore0 Opcode.astore3 code = false ∧ code ≠ Opcode.iinc) ∧
      (isShortJump code = false ∧ code ≠ Opcode.gotoW ∧ code ≠ Opcode.jsrW ∧
        code ≠ Opcode.tableswitch ∧ code ≠ Opcode.lookupswitch) := by
    apply forall_byte
    decide +kernel
  obtain ⟨hplain, hconstants, hlocals, hjumps⟩ := hfamily code h
  exact ⟨⟨hplain, hconstants, hlocals⟩, hjumps⟩

theorem isReference_of_field : ∀ code : UInt8,
    Opcode.between Opcode.getstatic Opcode.putfield code = true → isReference code = true := by
  apply forall_byte
  decide +kernel

theorem isReference_of_invoke : ∀ code : UInt8,
    Opcode.between Opcode.invokevirtual Opcode.invokeinterface code = true →
    isReference code = true ∧ Opcode.between Opcode.getstatic Opcode.putfield code = false := by
  apply forall_byte
  decide +kernel

theorem isReference_of_type : ∀ code : UInt8, isTypeInsn code = true →
    isReference code = true ∧ Opcode.between Opcode.getstatic Opcode.putfield code = false ∧
      Opcode.between Opcode.invokevirtual Opcode.invokeinterface code = false ∧
      code ≠ Opcode.invokedynamic := by
  apply forall_byte
  decide +kernel

/-! ## Rules -/

section

variable {pool : ConstantPool} {offset : Nat} {code : UInt8}

theorem readInsn_plain (h : isPlain code = true) :
    readInsn pool offset code = pure ⟨offset, .op code, []⟩ := by
  rw [readInsn, if_pos h]

theorem readInsn_bipush : readInsn pool offset Opcode.bipush = do
    return ⟨offset, .push Opcode.bipush (← i8).toInt32, []⟩ :=
  rfl

theorem readInsn_sipush : readInsn pool offset Opcode.sipush = do
    return ⟨offset, .push Opcode.sipush (← i16).toInt32, []⟩ :=
  rfl

theorem readInsn_ldc : readInsn pool offset Opcode.ldc = do
    let index := (← u8).toUInt16
    return ⟨offset, .ldc index (← lift (pool.loadable index)), []⟩ :=
  rfl

theorem readInsn_ldcW (h : code = Opcode.ldcW ∨ code = Opcode.ldc2W) : readInsn pool offset code = do
    let index ← u16
    return ⟨offset, .ldc index (← lift (pool.loadable index)), []⟩ := by
  rcases h with rfl | rfl
  · rfl
  · rfl

theorem readInsn_var (h : isLocalAccess code = true) : readInsn pool offset code = do
    return ⟨offset, .var code (← u8).toUInt16, []⟩ := by
  have hrule := not_earlier_of_isLocalAccess code h
  simp [readInsn, hrule, h]

theorem readInsn_shortLoad (h : Opcode.between Opcode.iload0 Opcode.aload3 code = true) :
    readInsn pool offset code = pure ⟨offset, shortForm code Opcode.iload0 Opcode.iload, []⟩ := by
  have hrule := not_earlier_of_shortLoad code h
  simp [readInsn, hrule, h]

theorem readInsn_shortStore (h : Opcode.between Opcode.istore0 Opcode.astore3 code = true) :
    readInsn pool offset code = pure ⟨offset, shortForm code Opcode.istore0 Opcode.istore, []⟩ := by
  have hrule := not_earlier_of_shortStore code h
  simp [readInsn, hrule, h]

theorem readInsn_iinc : readInsn pool offset Opcode.iinc = do
    let var := (← u8).toUInt16
    return ⟨offset, .iinc var (← i8).toInt16, []⟩ :=
  rfl

theorem readInsn_jump (h : isShortJump code = true) : readInsn pool offset code = do
    return ⟨offset, .jump code .dangling, [← shortTarget offset]⟩ := by
  have hrule := behindLocals_of_isShortJump code h
  simp [readInsn, hrule.plain, hrule.constants, hrule.locals, h]

theorem readInsn_gotoW : readInsn pool offset Opcode.gotoW = do
    return ⟨offset, .jump Opcode.goto .dangling, [← longTarget offset]⟩ :=
  rfl

theorem readInsn_jsrW : readInsn pool offset Opcode.jsrW = do
    return ⟨offset, .jump Opcode.jsr .dangling, [← longTarget offset]⟩ :=
  rfl

theorem readInsn_tableswitch : readInsn pool offset Opcode.tableswitch = tableSwitch offset :=
  rfl

theorem readInsn_lookupswitch : readInsn pool offset Opcode.lookupswitch = lookupSwitch offset :=
  rfl

theorem readInsn_field (h : Opcode.between Opcode.getstatic Opcode.putfield code = true) :
    readInsn pool offset code = do
      let index ← u16
      return ⟨offset, .field code index (← lift (pool.member index)).1, []⟩ := by
  have hrule := behindJumps_of_isReference code (isReference_of_field code h)
  simp [readInsn, hrule.plain, hrule.constants, hrule.locals, hrule.jumps, h]

theorem readInsn_invoke (h : Opcode.between Opcode.invokevirtual Opcode.invokeinterface code = true)
    (hother : code ≠ Opcode.invokeinterface) : readInsn pool offset code = do
      let index ← u16
      let (member, interface) ← lift (pool.member index)
      return ⟨offset, .invoke code index member interface, []⟩ := by
  obtain ⟨hreference, hfield⟩ := isReference_of_invoke code h
  have hrule := behindJumps_of_isReference code hreference
  simp [readInsn, hrule.plain, hrule.constants, hrule.locals, hrule.jumps, hfield, h, hother]

theorem readInsn_invokeinterface : readInsn pool offset Opcode.invokeinterface = do
    let index ← u16
    let _ ← u8
    let _ ← u8
    let (member, interface) ← lift (pool.member index)
    return ⟨offset, .invoke Opcode.invokeinterface index member interface, []⟩ :=
  rfl

theorem readInsn_invokedynamic : readInsn pool offset Opcode.invokedynamic = do
    let index ← u16
    let _ ← u16
    let (name, descriptor) ← lift (pool.invokeDynamic index)
    return ⟨offset, .invokeDynamic index name descriptor, []⟩ :=
  rfl

theorem readInsn_type (h : isTypeInsn code = true) : readInsn pool offset code = do
    let index ← u16
    return ⟨offset, .type code index (← lift (pool.className index)), []⟩ := by
  obtain ⟨hreference, hfield, hinvoke, hdynamic⟩ := isReference_of_type code h
  have hrule := behindJumps_of_isReference code hreference
  simp [readInsn, hrule.plain, hrule.constants, hrule.locals, hrule.jumps, hfield, hinvoke, hdynamic, h]

theorem readInsn_newarray : readInsn pool offset Opcode.newarray = do
    return ⟨offset, .newArray (← u8), []⟩ :=
  rfl

theorem readInsn_multianewarray : readInsn pool offset Opcode.multianewarray = do
    let index ← u16
    let className ← lift (pool.className index)
    return ⟨offset, .multiNewArray index className (← u8), []⟩ :=
  rfl

theorem readInsn_wide : readInsn pool offset Opcode.wide = wide fun insn => ⟨offset, insn, []⟩ :=
  rfl

end

end DirectCall.Code
