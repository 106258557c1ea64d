import DirectCall.Proofs.Bytes.ReadBack
import DirectCall.Proofs.Bytes.Taken
import DirectCall.Proofs.Code.Rule
import DirectCall.Proofs.Insn.Shape

/-!
# How instructions are spelt

`Code.Spells` says which bytes spell an instruction at an offset: there may be several spellings, short
ones and long ones. They are the ones that the rules for opcodes accept (`Code.takes_readInsn`,
`Code.Spells.readsAs`), so code is read as a row of instructions exactly if it is spelt in a row
(`Code.located_iff`).
-/

namespace DirectCall.Code

open Bytes Bytes.Reader

/-- Four bytes hold the displacement of the target. -/
def InReach (offset target : Nat) : Prop :=
  -0x80000000 ≤ (target : Int) - offset ∧ (target : Int) - offset < 0x80000000

/-- All ways to spell an instruction that are accepted at an offset. -/
inductive Spells (pool : ConstantPool) (offset : Nat) : List UInt8 → Located → Prop where
  | op {code : UInt8} (h : isPlain code = true) : Spells pool offset [code] ⟨offset, .op code, []⟩
  | bipush (value : Int8) :
    Spells pool offset [Opcode.bipush, value.toUInt8] ⟨offset, .push Opcode.bipush value.toInt32, []⟩
  | sipush (value : Int16) :
    Spells pool offset (Opcode.sipush :: ofInt16 value) ⟨offset, .push Opcode.sipush value.toInt32, []⟩
  | ldc {index : UInt8} {constant : Constant} (h : pool.loadable index.toUInt16 = .ok constant) :
    Spells pool offset [Opcode.ldc, index] ⟨offset, .ldc index.toUInt16 constant, []⟩
  | ldcLong {code : UInt8} {index : UInt16} {constant : Constant}
    (hcode : code = Opcode.ldcW ∨ code = Opcode.ldc2W) (h : pool.loadable index = .ok constant) :
    Spells pool offset (code :: ofUInt16 index) ⟨offset, .ldc index constant, []⟩
  | var {code : UInt8} (h : isLocalAccess code = true) (v : UInt8) :
    Spells pool offset [code, v] ⟨offset, .var code v.toUInt16, []⟩
  | shortLoad {code : UInt8} (h : Opcode.between Opcode.iload0 Opcode.aload3 code = true) :
    Spells pool offset [code] ⟨offset, shortForm code Opcode.iload0 Opcode.iload, []⟩
  | shortStore {code : UInt8} (h : Opcode.between Opcode.istore0 Opcode.astore3 code = true) :
    Spells pool offset [code] ⟨offset, shortForm code Opcode.istore0 Opcode.istore, []⟩
  | wideVar {code : UInt8} (h : isLocalAccess code = true) (v : UInt16) :
    Spells pool offset (Opcode.wide :: code :: ofUInt16 v) ⟨offset, .var code v, []⟩
  | iinc (v : UInt8) (delta : Int8) :
    Spells pool offset [Opcode.iinc, v, delta.toUInt8] ⟨offset, .iinc v.toUInt16 delta.toInt16, []⟩
  | wideIinc (v : UInt16) (delta : Int16) :
    Spells pool offset (Opcode.wide :: Opcode.iinc :: (ofUInt16 v ++ ofInt16 delta))
      ⟨offset, .iinc v delta, []⟩
  | jump {code : UInt8} (h : isShortJump code = true) {target : Nat}
    (hshort : Layout.isShort ((target : Int) - offset) = true) :
    Spells pool offset (code :: ofInt16 (Int16.ofInt ((target : Int) - offset)))
      ⟨offset, .jump code .dangling, [target]⟩
  | gotoW {target : Nat} (hreach : InReach offset target) :
    Spells pool offset (Opcode.gotoW :: Insn.longDisplacement ((target : Int) - offset))
      ⟨offset, .jump Opcode.goto .dangling, [target]⟩
  | jsrW {target : Nat} (hreach : InReach offset target) :
    Spells pool offset (Opcode.jsrW :: Insn.longDisplacement ((target : Int) - offset))
      ⟨offset, .jump Opcode.jsr .dangling, [target]⟩
  | tableSwitch {filler : List UInt8} {default : Nat} {low : Int32} {targets : List Nat}
    (hfiller : filler.length = padding offset) (hne : targets ≠ [])
    (hhigh : low.toInt + targets.length ≤ 0x80000000)
    (hreach : ∀ target ∈ default :: targets, InReach offset target) :
    Spells pool offset
      (Opcode.tableswitch :: (filler ++ (Insn.longDisplacement ((default : Int) - offset) ++
        (ofInt32 low ++ (ofInt32 (low + Int32.ofNat targets.length - 1) ++
          (targets.map fun target : Nat => Insn.longDisplacement ((target : Int) - offset)).flatten)))))
      ⟨offset, .tableSwitch low .dangling [], default :: targets⟩
  | lookupSwitch {filler : List UInt8} {default : Nat} {pairs : List (Int32 × Nat)}
    (hfiller : filler.length = padding offset) (hcount : pairs.length < 0x80000000)
    (hreach : ∀ target ∈ default :: pairs.map (·.2), InReach offset target) :
    Spells pool offset
      (Opcode.lookupswitch :: (filler ++ (Insn.longDisplacement ((default : Int) - offset) ++
        (ofUInt32 pairs.length.toUInt32 ++
          (pairs.map fun pair => ofInt32 pair.1 ++
            Insn.longDisplacement ((pair.2 : Int) - offset)).flatten))))
      ⟨offset, .lookupSwitch .dangling (pairs.map (·.1)) [], default :: pairs.map (·.2)⟩
  | field {code : UInt8} {index : UInt16} {m : MemberRef} {interface : Bool}
    (hcode : Opcode.between Opcode.getstatic Opcode.putfield code = true)
    (h : pool.member index = .ok (m, interface)) :
    Spells pool offset (code :: ofUInt16 index) ⟨offset, .field code index m, []⟩
  | invoke {code : UInt8} {index : UInt16} {m : MemberRef} {interface : Bool}
    (hcode : Opcode.between Opcode.invokevirtual Opcode.invokeinterface code = true)
    (hother : code ≠ Opcode.invokeinterface) (h : pool.member index = .ok (m, interface)) :
    Spells pool offset (code :: ofUInt16 index) ⟨offset, .invoke code index m interface, []⟩
  | invokeInterface {index : UInt16} {m : MemberRef} {interface : Bool} (count reserved : UInt8)
    (h : pool.member index = .ok (m, interface)) :
    Spells pool offset (Opcode.invokeinterface :: (ofUInt16 index ++ [count, reserved]))
      ⟨offset, .invoke Opcode.invokeinterface index m interface, []⟩
  | invokeDynamic {index : UInt16} {name descriptor : String} (reserved : UInt16)
    (h : pool.invokeDynamic index = .ok (name, descriptor)) :
    Spells pool offset (Opcode.invokedynamic :: (ofUInt16 index ++ ofUInt16 reserved))
      ⟨offset, .invokeDynamic index name descriptor, []⟩
  | type {code : UInt8} {index : UInt16} {className : String} (hcode : isTypeInsn code = true)
    (h : pool.className index = .ok className) :
    Spells pool offset (code :: ofUInt16 index) ⟨offset, .type code index className, []⟩
  | newArray (code : UInt8) : Spells pool offset [Opcode.newarray, code] ⟨offset, .newArray code, []⟩
  | multiNewArray {index : UInt16} {className : String} (dims : UInt8)
    (h : pool.className index = .ok className) :
    Spells pool offset (Opcode.multianewarray :: (ofUInt16 index ++ [dims]))
      ⟨offset, .multiNewArray index className dims, []⟩

variable {pool : ConstantPool} {offset : Nat}

/-- The last of `count` numbers from `low` on does not wrap around. -/
theorem high_eq {low : Int32} {count : Nat} (hpos : 0 < count) (hhigh : low.toInt + count ≤ 0x80000000) :
    (low + Int32.ofNat count - 1).toInt = low.toInt + count - 1 := by
  have hlow := low.le_toInt
  have hsize : ((Int32.size : Nat) : Int) = 0x100000000 := rfl
  rw [Int32.toInt_sub, Int32.toInt_add, Int32.toInt_ofNat', show Int32.size = 2 ^ 32 from rfl,
    Int.add_bmod_bmod, Int.bmod_sub_bmod, show (1 : Int32).toInt = 1 from rfl]
  exact Int.bmod_eq_of_le (by omega) (by omega)

/-! ## Spellings are read -/

theorem relative_sub (target : Nat) : relative offset ((target : Int) - offset) = pure target := by
  have hsum : (offset : Int) + ((target : Int) - offset) = target := by omega
  rw [relative, hsum, if_neg (by omega), Int.toNat_natCast]

theorem reads_longTarget {target : Nat} (h : InReach offset target) :
    (longTarget offset).Reads (Insn.longDisplacement ((target : Int) - offset)) target := by
  have hvalue : (Int32.ofInt ((target : Int) - offset)).toInt = (target : Int) - offset :=
    Int32.toInt_ofInt_of_le h.1 h.2
  rw [← List.append_nil (Insn.longDisplacement _)]
  refine (reads_i32 _).bind ?_
  rw [hvalue, relative_sub]
  exact reads_pure target

theorem reads_shortTarget {target : Nat} (hshort : Layout.isShort ((target : Int) - offset) = true) :
    (shortTarget offset).Reads (ofInt16 (Int16.ofInt ((target : Int) - offset))) target := by
  rw [Layout.isShort, Bool.and_eq_true, decide_eq_true_eq, decide_eq_true_eq] at hshort
  have hvalue : (Int16.ofInt ((target : Int) - offset)).toInt = (target : Int) - offset :=
    Int16.toInt_ofInt_of_le (by omega) (by omega)
  rw [← List.append_nil (ofInt16 _)]
  refine (reads_i16 _).bind ?_
  rw [hvalue, relative_sub]
  exact reads_pure target

theorem reads_keyedTarget {pair : Int32 × Nat} (h : InReach offset pair.2) :
    (keyedTarget offset).Reads (ofInt32 pair.1 ++ Insn.longDisplacement ((pair.2 : Int) - offset)) pair :=
  (reads_i32 pair.1).bind ((reads_longTarget h).bind_pure fun target => (pair.1, target))

/-- Items that are spelt one behind the other. -/
theorem reads_targets {α : Type} {read : Reader α} {spell : α → List UInt8} {items : List α}
    (h : ∀ a ∈ items, read.Reads (spell a) a) :
    (times items.length read).Reads (items.map spell).flatten items := by
  refine reads_times (List.forall₂_map_right_iff.mpr (List.forall₂_same.mpr h))

/-- The first byte of a spelling and what the rule for it reads behind. -/
def ReadsAs (pool : ConstantPool) (offset : Nat) (spelling : List UInt8) (l : Located) : Prop :=
  ∃ code operands, spelling = code :: operands ∧ (readInsn pool offset code).Reads operands l

theorem ReadsAs.of_rule {code : UInt8} {operands : List UInt8} {l : Located} {rule : Reader Located}
    (hrule : readInsn pool offset code = rule) (h : rule.Reads operands l) :
    ReadsAs pool offset (code :: operands) l :=
  ⟨code, operands, rfl, hrule ▸ h⟩

/-- An index of two bytes, and what it leads to. -/
theorem reads_indexed {α : Type} {find : UInt16 → Except Fault α} (make : UInt16 → α → Located)
    {index : UInt16} {a : α} (h : find index = .ok a) :
    (u16 >>= fun index => lift (find index) >>= fun a => pure (make index a)).Reads (ofUInt16 index)
      (make index a) := by
  rw [← List.append_nil (ofUInt16 index)]
  exact (reads_u16 index).bind ((reads_lift h).bind_pure (make index))

theorem reads_tableSwitch {filler : List UInt8} {default : Nat} {low : Int32} {targets : List Nat}
    (hfiller : filler.length = padding offset) (hne : targets ≠ [])
    (hhigh : low.toInt + targets.length ≤ 0x80000000)
    (hreach : ∀ target ∈ default :: targets, InReach offset target) :
    (tableSwitch offset).Reads (filler ++ (Insn.longDisplacement ((default : Int) - offset) ++
      (ofInt32 low ++ (ofInt32 (low + Int32.ofNat targets.length - 1) ++
        (targets.map fun target : Nat => Insn.longDisplacement ((target : Int) - offset)).flatten))))
      ⟨offset, .tableSwitch low .dangling [], default :: targets⟩ := by
  obtain ⟨hdefault, htargets⟩ := List.forall_mem_cons.mp hreach
  have hpos := List.length_pos_iff.mpr hne
  have hvalue := high_eq hpos hhigh
  refine (reads_bytes hfiller).bind <| (reads_longTarget hdefault).bind ?_
  refine (reads_i32 low).bind <| (reads_i32 _).bind ?_
  rw [if_neg (by rw [Int32.lt_iff_toInt_lt, hvalue]; omega)]
  have hcount : ((low + Int32.ofNat targets.length - 1).toInt - low.toInt + 1).toNat = targets.length := by
    rw [hvalue]
    omega
  rw [hcount]
  exact (reads_targets fun target htarget => reads_longTarget (htargets target htarget)).bind_pure
    fun targets => Located.mk offset (.tableSwitch low .dangling []) (default :: targets)

theorem reads_lookupSwitch {filler : List UInt8} {default : Nat} {pairs : List (Int32 × Nat)}
    (hfiller : filler.length = padding offset) (hcount : pairs.length < 0x80000000)
    (hreach : ∀ target ∈ default :: pairs.map (·.2), InReach offset target) :
    (lookupSwitch offset).Reads (filler ++ (Insn.longDisplacement ((default : Int) - offset) ++
      (ofUInt32 pairs.length.toUInt32 ++ (pairs.map fun pair => ofInt32 pair.1 ++
        Insn.longDisplacement ((pair.2 : Int) - offset)).flatten)))
      ⟨offset, .lookupSwitch .dangling (pairs.map (·.1)) [], default :: pairs.map (·.2)⟩ := by
  obtain ⟨hdefault, htargets⟩ := List.forall_mem_cons.mp hreach
  have hvalue : (Int32.ofNat pairs.length).toInt = pairs.length := Int32.toInt_ofNat_of_lt hcount
  refine (reads_bytes hfiller).bind <| (reads_longTarget hdefault).bind ?_
  refine (reads_i32 (Int32.ofNat pairs.length)).bind ?_
  rw [if_neg (by rw [Int32.lt_iff_toInt_lt, hvalue]; exact Int.not_lt.mpr (Int.natCast_nonneg _)), hvalue,
    Int.toNat_natCast]
  refine (reads_targets fun pair hpair => reads_keyedTarget ?_).bind_pure fun pairs =>
    Located.mk offset (.lookupSwitch .dangling (pairs.map (·.1)) []) (default :: pairs.map (·.2))
  exact htargets pair.2 (List.mem_map_of_mem hpair)

/-- Every spelling is read as the instruction it spells. -/
theorem Spells.readsAs {spelling : List UInt8} {l : Located} (h : Spells pool offset spelling l) :
    ReadsAs pool offset spelling l := by
  cases h with
  | op h => exact .of_rule (readInsn_plain h) (reads_pure _)
  | bipush value =>
    exact .of_rule readInsn_bipush ((reads_i8 value).bind_pure fun n =>
      Located.mk offset (.push Opcode.bipush n.toInt32) [])
  | sipush value =>
    exact .of_rule readInsn_sipush ((reads_i16 value).bind_pure fun n =>
      Located.mk offset (.push Opcode.sipush n.toInt32) [])
  | @ldc index constant h =>
    refine .of_rule readInsn_ldc ?_
    rw [← List.append_nil [index]]
    exact (reads_u8 index).bind ((reads_lift h).bind_pure fun k =>
      Located.mk offset (.ldc index.toUInt16 k) [])
  | ldcLong hcode h =>
    exact .of_rule (readInsn_ldcW hcode) (reads_indexed (fun index k => ⟨offset, .ldc index k, []⟩) h)
  | @var code h v =>
    exact .of_rule (readInsn_var h) ((reads_u8 v).bind_pure fun v =>
      Located.mk offset (.var code v.toUInt16) [])
  | shortLoad h => exact .of_rule (readInsn_shortLoad h) (reads_pure _)
  | shortStore h => exact .of_rule (readInsn_shortStore h) (reads_pure _)
  | @wideVar code h v =>
    have hother : code ≠ Opcode.iinc := by
      rintro rfl
      exact absurd h (by decide)
    refine .of_rule readInsn_wide ((reads_u8 code).bind ?_)
    rw [if_neg hother, if_pos h]
    exact (reads_u16 v).bind_pure fun v => Located.mk offset (.var code v) []
  | iinc v delta =>
    exact .of_rule readInsn_iinc ((reads_u8 v).bind ((reads_i8 delta).bind_pure fun d =>
      Located.mk offset (.iinc v.toUInt16 d.toInt16) []))
  | wideIinc v delta =>
    refine .of_rule readInsn_wide ((reads_u8 Opcode.iinc).bind ?_)
    rw [if_pos rfl]
    exact (reads_u16 v).bind ((reads_i16 delta).bind_pure fun d => Located.mk offset (.iinc v d) [])
  | @jump code h target hshort =>
    exact .of_rule (readInsn_jump h) ((reads_shortTarget hshort).bind_pure fun t =>
      Located.mk offset (.jump code .dangling) [t])
  | gotoW hreach =>
    exact .of_rule readInsn_gotoW ((reads_longTarget hreach).bind_pure fun t =>
      Located.mk offset (.jump Opcode.goto .dangling) [t])
  | jsrW hreach =>
    exact .of_rule readInsn_jsrW ((reads_longTarget hreach).bind_pure fun t =>
      Located.mk offset (.jump Opcode.jsr .dangling) [t])
  | tableSwitch hfiller hne hhigh hreach =>
    exact .of_rule readInsn_tableswitch (reads_tableSwitch hfiller hne hhigh hreach)
  | lookupSwitch hfiller hcount hreach =>
    exact .of_rule readInsn_lookupswitch (reads_lookupSwitch hfiller hcount hreach)
  | @field code index m interface hcode h =>
    exact .of_rule (readInsn_field hcode)
      (reads_indexed (fun index found => ⟨offset, .field code index found.1, []⟩) h)
  | @invoke code index m interface hcode hother h =>
    exact .of_rule (readInsn_invoke hcode hother)
      (reads_indexed (fun index found => ⟨offset, .invoke code index found.1 found.2, []⟩) h)
  | @invokeInterface index m interface count reserved h =>
    refine .of_rule readInsn_invokeinterface ?_
    refine (reads_u16 index).bind <| (reads_u8 count).bind ?_
    rw [← List.append_nil [reserved]]
    exact (reads_u8 reserved).bind ((reads_lift h).bind_pure fun found =>
      Located.mk offset (.invoke Opcode.invokeinterface index found.1 found.2) [])
  | @invokeDynamic index name descriptor reserved h =>
    refine .of_rule readInsn_invokedynamic ((reads_u16 index).bind ?_)
    rw [← List.append_nil (ofUInt16 reserved)]
    exact (reads_u16 reserved).bind ((reads_lift h).bind_pure fun found =>
      Located.mk offset (.invokeDynamic index found.1 found.2) [])
  | @type code index className hcode h =>
    exact .of_rule (readInsn_type hcode)
      (reads_indexed (fun index name => ⟨offset, .type code index name, []⟩) h)
  | newArray code =>
    exact .of_rule readInsn_newarray ((reads_u8 code).bind_pure fun code =>
      Located.mk offset (.newArray code) [])
  | @multiNewArray index className dims h =>
    refine .of_rule readInsn_multianewarray ((reads_u16 index).bind ?_)
    rw [← List.nil_append [dims]]
    exact (reads_lift h).bind ((reads_u8 dims).bind_pure fun dims =>
      Located.mk offset (.multiNewArray index className dims) [])

/-! ## Nothing else is read -/

theorem takes_relative (offset : Nat) (delta : Int) :
    (relative offset delta).Takes fun taken target => taken = [] ∧ (target : Int) - offset = delta := by
  unfold relative
  refine .ite (fun _ => takes_throw _) fun hpos => takes_pure ⟨rfl, ?_⟩
  omega

theorem takes_longTarget (offset : Nat) : (longTarget offset).Takes fun taken target =>
    Insn.longDisplacement ((target : Int) - offset) = taken ∧ InReach offset target := by
  refine takes_i32.bind fun taken delta hdelta => (takes_relative offset delta.toInt).imp ?_
  rintro taken' target ⟨rfl, htarget⟩
  rw [InReach, htarget, Insn.longDisplacement, Int32.ofInt_toInt, hdelta, List.append_nil]
  exact ⟨rfl, delta.le_toInt, delta.toInt_lt⟩

theorem takes_shortTarget (offset : Nat) : (shortTarget offset).Takes fun taken target =>
    ofInt16 (Int16.ofInt ((target : Int) - offset)) = taken ∧
      Layout.isShort ((target : Int) - offset) = true := by
  refine takes_i16.bind fun taken delta hdelta => (takes_relative offset delta.toInt).imp ?_
  rintro taken' target ⟨rfl, htarget⟩
  rw [htarget, Int16.ofInt_toInt, hdelta, List.append_nil, Layout.isShort, Bool.and_eq_true,
    decide_eq_true_eq, decide_eq_true_eq]
  exact ⟨rfl, delta.le_toInt, delta.toInt_le⟩

theorem takes_keyedTarget (offset : Nat) : (keyedTarget offset).Takes fun taken pair =>
    ofInt32 pair.1 ++ Insn.longDisplacement ((pair.2 : Int) - offset) = taken ∧
      InReach offset pair.2 := by
  refine takes_i32.bind fun taken key hkey => (takes_longTarget offset).bind_pure ?_
  rintro taken' target ⟨rfl, hreach⟩
  exact ⟨by rw [hkey], hreach⟩

/-- Items that are spelt one behind the other. -/
theorem takes_targets {α : Type} {read : Reader α} {spell : α → List UInt8} (target : α → Nat)
    (h : read.Takes fun taken a => spell a = taken ∧ InReach offset (target a)) (count : Nat) :
    (times count read).Takes fun taken items => items.length = count ∧
      taken = (items.map spell).flatten ∧ ∀ t ∈ items.map target, InReach offset t := by
  refine (takes_times h count).imp ?_
  rintro taken items ⟨hlength, parts, hparts, rfl⟩
  refine ⟨hlength, ?_, ?_⟩
  · have hspelt : List.Forall₂ Eq (items.map spell) parts :=
      List.forall₂_map_left_iff.mpr (hparts.imp fun _ _ hpart => hpart.1)
    rw [List.forall₂_eq_eq_eq] at hspelt
    rw [hspelt]
  · intro t ht
    obtain ⟨a, ha, rfl⟩ := List.mem_map.mp ht
    obtain ⟨part, _, hpart⟩ := exists_of_forall₂ hparts ha
    exact hpart.2

theorem takes_tableSwitch (pool : ConstantPool) (offset : Nat) : (tableSwitch offset).Takes fun taken l =>
    Spells pool offset (Opcode.tableswitch :: taken) l := by
  refine (takes_bytes (padding offset)).bind fun filler _ hfiller => ?_
  refine (takes_longTarget offset).bind fun first default hdefault => ?_
  refine takes_i32.bind fun lowBytes low hlow => takes_i32.bind fun highBytes high hhigh => ?_
  refine .ite (fun _ => (takes_throw (P := fun _ _ => False) _).bind fun _ _ h => h.elim) fun hle => ?_
  rw [Int32.lt_iff_toInt_lt, Int.not_lt] at hle
  refine (takes_targets id (takes_longTarget offset) _).bind_pure ?_
  rintro taken targets ⟨hlength, rfl, hreach⟩
  have hbound := high.toInt_lt
  have hpos : 0 < targets.length := by omega
  have hlast : low + Int32.ofNat targets.length - 1 = high := by
    apply Int32.toInt_inj.mp
    rw [@high_eq low targets.length hpos (by omega)]
    omega
  rw [hlow, hhigh, ← hdefault.1, ← hlast]
  rw [List.map_id] at hreach
  have hsum : low.toInt + targets.length ≤ 0x80000000 := by omega
  exact .tableSwitch hfiller.1 (List.length_pos_iff.mp hpos) hsum
    (List.forall_mem_cons.mpr ⟨hdefault.2, hreach⟩)

theorem takes_lookupSwitch (pool : ConstantPool) (offset : Nat) : (lookupSwitch offset).Takes fun taken l =>
    Spells pool offset (Opcode.lookupswitch :: taken) l := by
  refine (takes_bytes (padding offset)).bind fun filler _ hfiller => ?_
  refine (takes_longTarget offset).bind fun first default hdefault => ?_
  refine takes_i32.bind fun countBytes count hcount => ?_
  refine .ite (fun _ => (takes_throw (P := fun _ _ => False) _).bind fun _ _ h => h.elim) fun hle => ?_
  rw [Int32.lt_iff_toInt_lt, Int.not_lt] at hle
  refine (takes_targets (·.2) (takes_keyedTarget offset) _).bind_pure ?_
  rintro taken pairs ⟨hlength, rfl, hreach⟩
  have hbound := count.toInt_lt
  have hcountValue : countBytes = ofUInt32 pairs.length.toUInt32 := by
    have hnumber : Int32.ofNat pairs.length = count := by
      apply Int32.toInt_inj.mp
      rw [Int32.toInt_ofNat_of_lt (by omega)]
      exact (congrArg Nat.cast hlength).trans (Int.toNat_of_nonneg hle)
    rw [hcount, ← hnumber]
    rfl
  rw [hcountValue, ← hdefault.1]
  exact .lookupSwitch hfiller.1 (by omega) (List.forall_mem_cons.mpr ⟨hdefault.2, hreach⟩)

theorem takes_wide (pool : ConstantPool) (offset : Nat) :
    (wide fun insn => ⟨offset, insn, []⟩).Takes fun taken l => Spells pool offset (Opcode.wide :: taken) l := by
  refine takes_u8.bind fun innerBytes inner hinner => ?_
  rw [hinner]
  refine .ite (fun h => ?_) fun _ => .ite (fun h => ?_) fun _ => takes_throw _
  · rw [h]
    refine takes_u16.bind fun varBytes v hv => takes_i16.bind_pure fun taken delta hdelta => ?_
    rw [hv, hdelta]
    exact .wideIinc v delta
  · refine takes_u16.bind_pure fun taken v hv => ?_
    rw [hv]
    exact .wideVar h v

/-- An opcode is read with an index of two bytes and with what this leads to. -/
theorem takes_indexed {α : Type} (find : UInt16 → Except Fault α) (make : UInt16 → α → Located) :
    (u16 >>= fun index => lift (find index) >>= fun a => pure (make index a)).Takes
      fun taken l => ∃ index a, taken = ofUInt16 index ∧ find index = .ok a ∧ l = make index a := by
  refine takes_u16.bind fun taken index hindex => (takes_lift (find index)).bind_pure ?_
  rintro taken' a ⟨rfl, ha⟩
  exact ⟨index, a, by rw [hindex, List.append_nil], ha, rfl⟩

theorem takes_readInsn (pool : ConstantPool) (offset : Nat) (code : UInt8) :
    (readInsn pool offset code).Takes fun taken l => Spells pool offset (code :: taken) l := by
  unfold readInsn
  dsimp only
  refine .ite (fun h => ?_) fun _ => ?_
  · exact takes_pure (.op h)
  refine .ite (fun h => ?_) fun _ => ?_
  · subst h
    refine takes_i8.bind_pure fun taken value hvalue => ?_
    rw [hvalue]
    exact .bipush value
  refine .ite (fun h => ?_) fun _ => ?_
  · subst h
    refine takes_i16.bind_pure fun taken value hvalue => ?_
    rw [hvalue]
    exact .sipush value
  refine .ite (fun h => ?_) fun _ => ?_
  · subst h
    refine takes_u8.bind fun taken index hindex => (takes_lift _).bind_pure ?_
    rintro taken' constant ⟨rfl, hconstant⟩
    rw [hindex]
    exact .ldc hconstant
  refine .ite (fun h => ?_) fun _ => ?_
  · refine (takes_indexed pool.loadable fun index constant => ⟨offset, .ldc index constant, []⟩).imp ?_
    rintro taken l ⟨index, constant, rfl, hconstant, rfl⟩
    exact .ldcLong h hconstant
  refine .ite (fun h => ?_) fun _ => ?_
  · refine takes_u8.bind_pure fun taken v hv => ?_
    rw [hv]
    exact .var h v
  refine .ite (fun h => ?_) fun _ => ?_
  · exact takes_pure (.shortLoad h)
  refine .ite (fun h => ?_) fun _ => ?_
  · exact takes_pure (.shortStore h)
  refine .ite (fun h => ?_) fun _ => ?_
  · subst h
    refine takes_u8.bind fun taken v hv => takes_i8.bind_pure fun taken' delta hdelta => ?_
    rw [hv, hdelta]
    exact .iinc v delta
  refine .ite (fun h => ?_) fun _ => ?_
  · refine (takes_shortTarget offset).bind_pure ?_
    rintro taken target ⟨rfl, hshort⟩
    exact .jump h hshort
  refine .ite (fun h => ?_) fun _ => ?_
  · subst h
    refine (takes_longTarget offset).bind_pure ?_
    rintro taken target ⟨rfl, hreach⟩
    exact .gotoW hreach
  refine .ite (fun h => ?_) fun _ => ?_
  · subst h
    refine (takes_longTarget offset).bind_pure ?_
    rintro taken target ⟨rfl, hreach⟩
    exact .jsrW hreach
  refine .ite (fun h => ?_) fun _ => ?_
  · subst h
    exact takes_tableSwitch pool offset
  refine .ite (fun h => ?_) fun _ => ?_
  · subst h
    exact takes_lookupSwitch pool offset
  refine .ite (fun h => ?_) fun _ => ?_
  · refine (takes_indexed pool.member fun index m => ⟨offset, .field code index m.1, []⟩).imp ?_
    rintro taken l ⟨index, m, rfl, hmember, rfl⟩
    exact .field h hmember
  refine .ite (fun h => ?_) fun _ => ?_
  · refine takes_u16.bind fun taken index hindex => ?_
    refine .ite (fun hinterface => ?_) fun hother => ?_
    · subst hinterface
      refine takes_u8.bind fun countBytes count hcount => takes_u8.bind fun restBytes reserved hreserved => ?_
      refine (takes_lift _).bind_pure ?_
      rintro taken' m ⟨rfl, hmember⟩
      rw [hindex, hcount, hreserved]
      exact .invokeInterface count reserved hmember
    · refine (takes_lift _).bind_pure ?_
      rintro taken' m ⟨rfl, hmember⟩
      rw [hindex, List.append_nil]
      exact .invoke h hother hmember
  refine .ite (fun h => ?_) fun _ => ?_
  · subst h
    refine takes_u16.bind fun taken index hindex => takes_u16.bind fun restBytes reserved hreserved => ?_
    refine (takes_lift _).bind_pure ?_
    rintro taken' found ⟨rfl, hfound⟩
    rw [hindex, hreserved, List.append_nil]
    exact .invokeDynamic reserved hfound
  refine .ite (fun h => ?_) fun _ => ?_
  · refine (takes_indexed pool.className fun index name => ⟨offset, .type code index name, []⟩).imp ?_
    rintro taken l ⟨index, name, rfl, hname, rfl⟩
    exact .type h hname
  refine .ite (fun h => ?_) fun _ => ?_
  · subst h
    refine takes_u8.bind_pure fun taken kind hkind => ?_
    rw [hkind]
    exact .newArray kind
  refine .ite (fun h => ?_) fun _ => ?_
  · subst h
    refine takes_u16.bind fun taken index hindex => (takes_lift _).bind ?_
    rintro taken' name ⟨rfl, hname⟩
    refine takes_u8.bind_pure fun restBytes dims hdims => ?_
    rw [hindex, hdims]
    exact .multiNewArray dims hname
  refine .ite (fun h => ?_) fun _ => takes_throw _
  · subst h
    exact takes_wide pool offset

/-! ## What is spelt is sound -/

theorem Spells.offset_eq {spelling : List UInt8} {l : Located} (h : Spells pool offset spelling l) :
    l.offset = offset := by
  cases h <;> rfl

theorem Spells.isReal {spelling : List UInt8} {l : Located} (h : Spells pool offset spelling l) :
    l.insn.isReal = true := by
  cases h <;> rfl

theorem isLocalAccess_shortLoad : ∀ code : UInt8, Opcode.between Opcode.iload0 Opcode.aload3 code = true →
    isLocalAccess (Opcode.iload + (code - Opcode.iload0) / 4) = true := by
  apply forall_byte
  decide +kernel

theorem isLocalAccess_shortStore : ∀ code : UInt8,
    Opcode.between Opcode.istore0 Opcode.astore3 code = true →
      isLocalAccess (Opcode.istore + (code - Opcode.istore0) / 4) = true := by
  apply forall_byte
  decide +kernel

/-- With labels for its targets, an instruction that is spelt fits, and its index leads to what it carries. -/
theorem Spells.fits_names {spelling : List UInt8} {l : Located} (h : Spells pool offset spelling l)
    (labels : Labels) : (l.link labels).Fits ∧ (l.link labels).Names pool (l.link labels).storedIndex := by
  cases h with
  | op h => exact ⟨h, trivial⟩
  | bipush value =>
    refine ⟨.inl ⟨rfl, ?_⟩, trivial⟩
    rw [Int8.toInt_toInt32]
    exact ⟨value.le_toInt, value.toInt_le⟩
  | sipush value =>
    refine ⟨.inr ⟨rfl, ?_⟩, trivial⟩
    rw [Int16.toInt_toInt32]
    exact ⟨value.le_toInt, value.toInt_le⟩
  | ldc h => exact ⟨trivial, h⟩
  | ldcLong _ h => exact ⟨trivial, h⟩
  | var h v => exact ⟨h, trivial⟩
  | shortLoad h => exact ⟨isLocalAccess_shortLoad _ h, trivial⟩
  | shortStore h => exact ⟨isLocalAccess_shortStore _ h, trivial⟩
  | wideVar h v => exact ⟨h, trivial⟩
  | iinc v delta => exact ⟨trivial, trivial⟩
  | wideIinc v delta => exact ⟨trivial, trivial⟩
  | jump h hshort => exact ⟨h, trivial⟩
  | gotoW hreach => exact ⟨rfl, trivial⟩
  | jsrW hreach => exact ⟨rfl, trivial⟩
  | tableSwitch hfiller hne hhigh hreach =>
    refine ⟨⟨by simpa using hne, ?_⟩, trivial⟩
    rw [List.length_map]
    exact hhigh
  | lookupSwitch hfiller hcount hreach =>
    refine ⟨?_, trivial⟩
    simp [Located.link, Insn.Fits]
  | @field _ _ _ interface hcode h => exact ⟨hcode, interface, h⟩
  | invoke hcode _ h => exact ⟨hcode, h⟩
  | invokeInterface _ _ h => exact ⟨rfl, h⟩
  | invokeDynamic _ h => exact ⟨trivial, h⟩
  | type hcode h => exact ⟨hcode, h⟩
  | newArray code => exact ⟨trivial, trivial⟩
  | multiNewArray dims h => exact ⟨trivial, h⟩

/-- Jumps lead to the labels of their targets. -/
theorem Spells.targets_link {spelling : List UInt8} {l : Located} (h : Spells pool offset spelling l)
    (labels : Labels) : (l.link labels).targets = l.targets.map labels.find := by
  cases h <;> rfl

/-! ## Instructions in a row -/

/-- Instructions from an offset on, one behind the other, each in a relation to its offset and bytes. -/
inductive Row (P : Nat → List UInt8 → Located → Prop) : Nat → List Located → List UInt8 → Prop where
  | nil (offset : Nat) : Row P offset [] []
  | cons {offset : Nat} {l : Located} {ls : List Located} {spelling rest : List UInt8}
    (first : P offset spelling l) (others : Row P (offset + spelling.length) ls rest) :
    Row P offset (l :: ls) (spelling ++ rest)

theorem Row.imp {P P' : Nat → List UInt8 → Located → Prop} {ls : List Located} {bytes : List UInt8}
    (h : Row P offset ls bytes) (himp : ∀ offset spelling l, P offset spelling l → P' offset spelling l) :
    Row P' offset ls bytes := by
  induction h with
  | nil offset => exact .nil offset
  | cons first _ ih => exact .cons (himp _ _ _ first) ih

theorem Row.exists_of_mem {P : Nat → List UInt8 → Located → Prop} {ls : List Located} {bytes : List UInt8}
    (h : Row P offset ls bytes) {l : Located} (hl : l ∈ ls) : ∃ offset spelling, P offset spelling l := by
  induction h with
  | nil offset => exact absurd hl List.not_mem_nil
  | cons first _ ih =>
    rcases List.mem_cons.mp hl with rfl | hl
    · exact ⟨_, _, first⟩
    · exact ih hl

theorem ReadsAs.length_pos {spelling : List UInt8} {l : Located} (h : ReadsAs pool offset spelling l) :
    0 < spelling.length := by
  obtain ⟨code, operands, rfl, _⟩ := h
  exact Nat.succ_pos _

theorem ReadsAs.readOne {spelling : List UInt8} {l : Located} (h : ReadsAs pool offset spelling l)
    (rest : List UInt8) :
    readOne pool ⟨offset, spelling ++ rest⟩ = .ok (l, ⟨offset + spelling.length, rest⟩) := by
  obtain ⟨code, operands, rfl, hread⟩ := h
  unfold Code.readOne
  rw [get_bind_apply]
  refine bind_apply_eq_ok.mpr ⟨code, ⟨offset + 1, operands ++ rest⟩, ?_, ?_⟩
  · exact reads_u8 code offset (operands ++ rest)
  · have hrest := (hread.reading (.decodingOpcode code offset)) (offset + 1) rest
    rw [hrest, List.length_cons, Nat.add_comm operands.length 1, Nat.add_assoc]

theorem readOne_spells {c c' : Cursor} {l : Located} (h : readOne pool c = .ok (l, c')) :
    ∃ spelling, c.rest = spelling ++ c'.rest ∧ c'.offset = c.offset + spelling.length ∧
      Spells pool c.offset spelling l := by
  unfold readOne at h
  rw [get_bind_apply] at h
  obtain ⟨code, middle, hcode, h⟩ := bind_apply_eq_ok.mp h
  obtain ⟨_, hfirst, hmiddle, rfl⟩ := takes_u8 _ _ _ hcode
  obtain ⟨operands, hrest, hoffset, hspells⟩ :=
    (takes_readInsn pool c.offset code).reading _ _ _ _ h
  refine ⟨code :: operands, ?_, ?_, hspells⟩
  · rw [hfirst, hrest]
    rfl
  · rw [hoffset, hmiddle, List.length_singleton, List.length_cons]
    omega

/-- What is spelt in a row is read. -/
theorem Row.readAll {ls : List Located} {bytes : List UInt8} (h : Row (Spells pool) offset ls bytes)
    (count : Nat) (hcount : bytes.length ≤ count) (done : List Located) :
    readAll pool count done ⟨offset, bytes⟩ = .ok (done.reverse ++ ls, ⟨offset + bytes.length, []⟩) := by
  induction h generalizing count done with
  | nil offset =>
    rw [List.append_nil]
    cases count with
    | zero => rfl
    | succ count => rfl
  | @cons offset l ls spelling rest first _ ih =>
    have hpos := first.readsAs.length_pos
    rw [List.length_append] at hcount
    obtain ⟨count, rfl⟩ : ∃ n, count = n + 1 := ⟨count - 1, by omega⟩
    have hrest := ih count (by omega) (l :: done)
    have hne : (spelling ++ rest).isEmpty = false := by
      cases spelling with
      | nil => exact absurd hpos (Nat.lt_irrefl _)
      | cons b spelling => rfl
    rw [Code.readAll, get_bind_apply]
    dsimp only
    rw [if_neg (by rw [hne]; exact Bool.false_ne_true)]
    refine bind_apply_eq_ok.mpr ⟨l, _, first.readsAs.readOne rest, ?_⟩
    rw [hrest, List.reverse_cons, List.append_assoc, List.length_append, Nat.add_assoc]
    rfl

/-- What is read is spelt in a row, behind what was read before. -/
theorem row_of_readAll {count : Nat} {done insns : List Located} {c c' : Cursor}
    (h : readAll pool count done c = .ok (insns, c')) (hcount : c.rest.length ≤ count) :
    ∃ ls, insns = done.reverse ++ ls ∧ Row (Spells pool) c.offset ls c.rest := by
  induction count generalizing done c with
  | zero =>
    cases h
    rw [List.length_eq_zero_iff.mp (Nat.le_zero.mp hcount)]
    exact ⟨[], by simp, .nil _⟩
  | succ count ih =>
    rw [readAll, get_bind_apply] at h
    split_ifs at h with hempty
    · cases h
      rw [List.isEmpty_iff.mp hempty]
      exact ⟨[], by simp, .nil _⟩
    · obtain ⟨l, middle, hl, h⟩ := bind_apply_eq_ok.mp h
      obtain ⟨spelling, hrest, hoffset, hspells⟩ := readOne_spells hl
      have hpos := hspells.readsAs.length_pos
      have hlength := congrArg List.length hrest
      rw [List.length_append] at hlength
      obtain ⟨ls, rfl, hrow⟩ := ih h (by omega)
      rw [hoffset] at hrow
      exact ⟨l :: ls, by simp, hrest ▸ .cons hspells hrow⟩

/-- Code is read as the instructions that it spells in a row. -/
theorem located_iff {code : List UInt8} {insns : List Located} :
    located pool code = .ok insns ↔ Row (Spells pool) 0 insns code := by
  constructor
  · intro h
    unfold located Reader.of at h
    cases hread : readAll pool code.length [] (.start code) with
    | error fault =>
      rw [hread] at h
      cases h
    | ok result =>
      obtain ⟨found, c⟩ := result
      rw [hread] at h
      cases h
      obtain ⟨ls, rfl, hrow⟩ := row_of_readAll hread (Nat.le_refl _)
      exact hrow
  · intro h
    rw [Code.located, Reader.of, Cursor.start, h.readAll code.length (Nat.le_refl _) []]
    rfl

end DirectCall.Code
