import DirectCall.Code.Encode
import DirectCall.Proofs.ConstantPool.Named

/-!
# Instructions by their shape

An instruction without its targets and with its pool index singled out. `Insn.Fits` says which opcodes
and operands go together in instructions that are read, `Insn.Names` that an index leads to what the
instruction carries. The index an instruction is given when it is written leads there
(`Insn.indexed_of_poolIndex`).
-/

namespace DirectCall

namespace Insn

/-- The pool index that the instruction keeps; zero stands for none. -/
def storedIndex : Insn → UInt16
  | ldc index _ => index
  | field _ index _ => index
  | invoke _ index _ _ => index
  | invokeDynamic index _ _ => index
  | type _ index _ => index
  | multiNewArray index _ _ => index
  | _ => 0

/-- The instruction with another pool index, if it has one at all. -/
def withIndex (index : UInt16) : Insn → Insn
  | ldc _ constant => ldc index constant
  | field code _ member => field code index member
  | invoke code _ member interface => invoke code index member interface
  | invokeDynamic _ name descriptor => invokeDynamic index name descriptor
  | type code _ className => type code index className
  | multiNewArray _ descriptor dims => multiNewArray index descriptor dims
  | insn => insn

/-- The instruction without its targets. -/
def bare : Insn → Insn
  | jump code _ => jump code .dangling
  | tableSwitch low _ _ => tableSwitch low .dangling []
  | lookupSwitch _ keys _ => lookupSwitch .dangling keys []
  | insn => insn

/-- Opcode and operands go together as they do in an instruction that was read. -/
def Fits : Insn → Prop
  | op code => Code.isPlain code = true
  | push code value =>
    (code = Opcode.bipush ∧ -128 ≤ value.toInt ∧ value.toInt ≤ 127) ∨
      (code = Opcode.sipush ∧ -32768 ≤ value.toInt ∧ value.toInt ≤ 32767)
  | var code _ => Code.isLocalAccess code = true
  | field code _ _ => Opcode.between Opcode.getstatic Opcode.putfield code = true
  | invoke code _ _ _ => Opcode.between Opcode.invokevirtual Opcode.invokeinterface code = true
  | type code _ _ => Code.isTypeInsn code = true
  | jump code _ => Code.isShortJump code = true
  | tableSwitch low _ targets => targets ≠ [] ∧ low.toInt + targets.length ≤ 0x80000000
  | lookupSwitch _ keys targets => keys.length = targets.length
  | _ => True

/-- What the size of an instruction takes for granted: a local is loaded, stored or returned to, and a switch
has as many keys as targets. -/
def Sized : Insn → Prop
  | var code _ => Code.isLocalAccess code = true
  | lookupSwitch _ keys targets => keys.length = targets.length
  | _ => True

theorem Fits.sized {insn : Insn} (h : insn.Fits) : insn.Sized := by
  cases insn with
  | var code v => exact h
  | lookupSwitch default keys targets => exact h
  | _ => trivial

/-- The index leads to the constant, class or member that the instruction carries. -/
def Names (pool : ConstantPool) (index : UInt16) : Insn → Prop
  | ldc _ constant => pool.loadable index = .ok constant
  | field _ _ member => ∃ interface, pool.member index = .ok (member, interface)
  | invoke _ _ member interface => pool.member index = .ok (member, interface)
  | invokeDynamic _ name descriptor => pool.invokeDynamic index = .ok (name, descriptor)
  | type _ _ className => pool.className index = .ok className
  | multiNewArray _ descriptor _ => pool.className index = .ok descriptor
  | _ => True

/-- An instruction that fits, and whose index leads to what it carries if there is one. -/
structure Sound (pool : ConstantPool) (insn : Insn) : Prop where
  fits : insn.Fits
  names : insn.storedIndex ≠ 0 → insn.Names pool insn.storedIndex

/-- An index that the instruction can be written with: the one it keeps, if any, and one that leads to
what it carries. -/
structure Indexed (pool : ConstantPool) (insn : Insn) (index : UInt16) : Prop where
  kept : insn.storedIndex ≠ 0 → index = insn.storedIndex
  names : insn.Names pool index

/-- The second instruction is the first one up to its targets and to the index of one made afresh. -/
def Becomes (insn insn' : Insn) : Prop :=
  ∃ index, (insn.storedIndex ≠ 0 → index = insn.storedIndex) ∧ insn'.bare = (insn.withIndex index).bare

section

variable {pool pool' : ConstantPool} {insn : Insn} {index : UInt16}

@[simp] theorem storedIndex_bare : insn.bare.storedIndex = insn.storedIndex := by
  cases insn <;> rfl

@[simp] theorem bare_bare : insn.bare.bare = insn.bare := by
  cases insn <;> rfl

theorem Names.grow (h : insn.Names pool index) (hgrows : pool.Grows pool') : insn.Names pool' index := by
  cases insn with
  | ldc _ constant => exact hgrows.loadable h
  | field _ _ member =>
    obtain ⟨interface, hmember⟩ := h
    exact ⟨interface, hgrows.member hmember⟩
  | invoke _ _ member interface => exact hgrows.member h
  | invokeDynamic _ name descriptor => exact hgrows.keeps.invokeDynamic _ _ h
  | type _ _ className => exact hgrows.className h
  | multiNewArray _ descriptor _ => exact hgrows.className h
  | _ => trivial

theorem Sound.grow (h : insn.Sound pool) (hgrows : pool.Grows pool') : insn.Sound pool' :=
  ⟨h.fits, fun hindex => (h.names hindex).grow hgrows⟩

theorem Indexed.grow (h : insn.Indexed pool index) (hgrows : pool.Grows pool') : insn.Indexed pool' index :=
  ⟨h.kept, h.names.grow hgrows⟩

/-- An index that is there is kept; otherwise the steps hand one out. -/
theorem index_of_ite {P : ConstantPool → UInt16 → Prop} {stored : UInt16} {steps : ConstantPool.Edit UInt16}
    (hkept : stored ≠ 0 → P pool stored) (hmade : pool.edit steps = (.ok index, pool') → P pool' index)
    (h : pool.edit (if stored ≠ 0 then pure stored else steps) = (.ok index, pool')) :
    (stored ≠ 0 → index = stored) ∧ P pool' index := by
  by_cases hstored : stored = 0
  · rw [if_neg (not_not.mpr hstored)] at h
    exact ⟨fun hne => absurd hstored hne, hmade h⟩
  · rw [if_pos hstored] at h
    cases h
    exact ⟨fun _ => rfl, hkept hstored⟩

/-- The index that is asked of the pool is one to write the instruction with. -/
theorem indexed_of_poolIndex (hsmall : pool.size ≤ 65535) (hsound : insn.Sound pool)
    (h : pool.edit insn.poolIndex = (.ok index, pool')) : insn.Indexed pool' index := by
  have hnames := hsound.names
  suffices hboth : (insn.storedIndex ≠ 0 → index = insn.storedIndex) ∧ insn.Names pool' index from
    ⟨hboth.1, hboth.2⟩
  cases insn with
  | ldc stored constant =>
    exact index_of_ite (P := fun pool i => pool.loadable i = .ok constant) hnames
      (ConstantPool.loadable_of_constantIndex hsmall) h
  | field code stored member =>
    exact index_of_ite (P := fun pool i => ∃ interface, pool.member i = .ok (member, interface)) hnames
      (fun hmade => ⟨false, ConstantPool.member_of_fieldIndex hsmall hmade⟩) h
  | invoke code stored member interface =>
    exact index_of_ite (P := fun pool i => pool.member i = .ok (member, interface)) hnames
      (ConstantPool.member_of_methodIndex hsmall) h
  | invokeDynamic stored name descriptor =>
    exact index_of_ite (P := fun pool i => pool.invokeDynamic i = .ok (name, descriptor)) hnames
      (fun hmade => by cases hmade) h
  | type code stored className =>
    exact index_of_ite (P := fun pool i => pool.className i = .ok className) hnames
      (ConstantPool.className_of_classIndex hsmall) h
  | multiNewArray stored descriptor dims =>
    exact index_of_ite (P := fun pool i => pool.className i = .ok descriptor) hnames
      (ConstantPool.className_of_classIndex hsmall) h
  | _ => exact ⟨fun hne => absurd rfl hne, trivial⟩

end

end Insn

end DirectCall
