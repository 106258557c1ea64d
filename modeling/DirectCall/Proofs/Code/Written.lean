import DirectCall.Proofs.Code.Spelling

/-!
# What is written spells the instruction

Whatever form an instruction is written in, it is a spelling of the same instruction, with offsets in the
place of its targets (`Insn.spells_write`), and takes as many bytes as the layout gives it
(`Insn.length_write`). The form depends on the local variable, on the pool index and on the width of a jump;
what is spelt does not.
-/

namespace DirectCall

open Bytes Bytes.Reader

/-! ## Numbers in a narrower form -/

theorem toUInt16_toUInt8 {n : UInt16} (h : n ≤ 255) : n.toUInt8.toUInt16 = n := by
  rw [UInt16.le_iff_toNat_le] at h
  have hbound : n.toNat ≤ 255 := h
  apply UInt16.toNat_inj.mp
  rw [UInt8.toNat_toUInt16, UInt16.toNat_toUInt8]
  omega

theorem toInt16_toInt8 {n : Int16} (h : Insn.fitsByte n = true) : n.toInt8.toInt16 = n := by
  rw [Insn.fitsByte, Bool.and_eq_true, decide_eq_true_eq, decide_eq_true_eq, Int16.le_iff_toInt_le,
    Int16.le_iff_toInt_le] at h
  have hlow : -128 ≤ n.toInt := h.1
  have hhigh : n.toInt ≤ 127 := h.2
  apply Int16.toInt_inj.mp
  rw [Int8.toInt_toInt16, Int16.toInt_toInt8, Int.bmod_eq_of_le (by omega) (by omega)]

theorem toInt32_toInt8 {n : Int32} (hlow : -128 ≤ n.toInt) (hhigh : n.toInt ≤ 127) :
    n.toInt8.toInt32 = n := by
  apply Int32.toInt_inj.mp
  rw [Int8.toInt_toInt32, Int32.toInt_toInt8, Int.bmod_eq_of_le (by omega) (by omega)]

theorem toInt32_toInt16 {n : Int32} (hlow : -32768 ≤ n.toInt) (hhigh : n.toInt ≤ 32767) :
    n.toInt16.toInt32 = n := by
  apply Int32.toInt_inj.mp
  rw [Int16.toInt_toInt32, Int32.toInt_toInt16, Int.bmod_eq_of_le (by omega) (by omega)]

namespace Code

variable {pool : ConstantPool} {offset : Nat}

/-! ## Local variables -/

theorem shortForm_load : ∀ code : UInt8, Opcode.between Opcode.iload Opcode.aload code = true →
    ∀ v ∈ [(0 : UInt16), 1, 2, 3],
      Opcode.between Opcode.iload0 Opcode.aload3
        (Opcode.iload0 + (code - Opcode.iload) * 4 + v.toUInt8) = true ∧
      shortForm (Opcode.iload0 + (code - Opcode.iload) * 4 + v.toUInt8) Opcode.iload0 Opcode.iload =
        .var code v := by
  intro code hcode v hv
  simp only [List.mem_cons, List.not_mem_nil, or_false] at hv
  revert code
  rcases hv with rfl | rfl | rfl | rfl <;> exact forall_byte (by decide +kernel)

theorem shortForm_store : ∀ code : UInt8, Opcode.between Opcode.istore Opcode.astore code = true →
    ∀ v ∈ [(0 : UInt16), 1, 2, 3],
      Opcode.between Opcode.istore0 Opcode.astore3
        (Opcode.istore0 + (code - Opcode.istore) * 4 + v.toUInt8) = true ∧
      shortForm (Opcode.istore0 + (code - Opcode.istore) * 4 + v.toUInt8) Opcode.istore0 Opcode.istore =
        .var code v := by
  intro code hcode v hv
  simp only [List.mem_cons, List.not_mem_nil, or_false] at hv
  revert code
  rcases hv with rfl | rfl | rfl | rfl <;> exact forall_byte (by decide +kernel)

theorem mem_of_lt_four {v : UInt16} (h : ¬ 4 ≤ v) : v ∈ [(0 : UInt16), 1, 2, 3] := by
  rw [UInt16.le_iff_toNat_le] at h
  have hbound : v.toNat < 4 := Nat.lt_of_not_le h
  have hcases : v.toNat = 0 ∨ v.toNat = 1 ∨ v.toNat = 2 ∨ v.toNat = 3 := by omega
  simp only [List.mem_cons, List.not_mem_nil, or_false, ← UInt16.toNat_inj]
  exact hcases

theorem spells_writeLocal {code : UInt8} (h : isLocalAccess code = true) (v : UInt16) :
    Spells pool offset (Insn.writeLocal code v) ⟨offset, .var code v, []⟩ := by
  unfold Insn.writeLocal Insn.shortLocal?
  split
  · rename_i short hshort
    split_ifs at hshort with hsmall hload hstore
    · cases hshort
      obtain ⟨hfamily, hform⟩ := shortForm_load code hload v (mem_of_lt_four hsmall)
      rw [← hform]
      exact .shortLoad hfamily
    · cases hshort
      obtain ⟨hfamily, hform⟩ := shortForm_store code hstore v (mem_of_lt_four hsmall)
      rw [← hform]
      exact .shortStore hfamily
  · split_ifs with hbyte
    · have hspells := @Spells.var pool offset code h v.toUInt8
      rwa [toUInt16_toUInt8 hbyte] at hspells
    · exact .wideVar h v

theorem spells_writeIncrement (v : UInt16) (delta : Int16) :
    Spells pool offset (Insn.writeIncrement v delta) ⟨offset, .iinc v delta, []⟩ := by
  unfold Insn.writeIncrement
  split_ifs with hsmall
  · have hspells := @Spells.iinc pool offset v.toUInt8 delta.toInt8
    rwa [toUInt16_toUInt8 hsmall.1, toInt16_toInt8 hsmall.2] at hspells
  · exact .wideIinc v delta

/-! ## References -/

theorem spells_writeLoad {constant : Constant} {index : UInt16} (h : pool.loadable index = .ok constant) :
    Spells pool offset (Insn.writeLoad constant index) ⟨offset, .ldc index constant, []⟩ := by
  unfold Insn.writeLoad
  split_ifs with hwide hlarge
  · exact .ldcLong (.inr rfl) h
  · exact .ldcLong (.inl rfl) h
  · have hindex : index.toUInt8.toUInt16 = index := by
      refine toUInt16_toUInt8 ?_
      rw [UInt16.lt_iff_toNat_lt] at hlarge
      rw [UInt16.le_iff_toNat_le]
      exact Nat.le_of_not_lt hlarge
    have hspells := @Spells.ldc pool offset index.toUInt8 constant (by rw [hindex]; exact h)
    rwa [hindex] at hspells

theorem spells_writeCall {code : UInt8} {m : MemberRef} {interface : Bool} {index : UInt16}
    {spelling : List UInt8}
    (hcode : Opcode.between Opcode.invokevirtual Opcode.invokeinterface code = true)
    (hmember : pool.member index = .ok (m, interface)) (h : Insn.writeCall code m index = .ok spelling) :
    Spells pool offset spelling ⟨offset, .invoke code index m interface, []⟩ := by
  unfold Insn.writeCall at h
  split_ifs at h with hinterface
  · subst hinterface
    split at h
    · cases h
    · split_ifs at h
      cases h
      exact .invokeInterface _ 0 hmember
  · cases h
    exact .invoke hcode hinterface hmember

/-! ## Targets -/

/-- The distances from an offset to targets within the code. -/
structure Reaches (distance : NodeId → Except Fault Int) (offset : Nat) (target : NodeId → Nat)
    (ids : List NodeId) : Prop where
  start : offset ≤ 65535
  inside : ∀ id ∈ ids, target id ≤ 65535
  distance_eq : ∀ id ∈ ids, distance id = .ok ((target id : Int) - offset)

section

variable {distance : NodeId → Except Fault Int} {target : NodeId → Nat} {ids : List NodeId}

theorem Reaches.inReach (h : Reaches distance offset target ids) {id : NodeId} (hid : id ∈ ids) :
    InReach offset (target id) := by
  have hstart := h.start
  have hinside := h.inside id hid
  constructor <;> omega

theorem Reaches.forall_inReach (h : Reaches distance offset target ids) :
    ∀ t ∈ ids.map target, InReach offset t := by
  intro t ht
  obtain ⟨id, hid, rfl⟩ := List.mem_map.mp ht
  exact h.inReach hid

theorem Reaches.map_eq (h : Reaches distance offset target ids) {id : NodeId} (hid : id ∈ ids) :
    Insn.longDisplacement <$> distance id = .ok (Insn.longDisplacement ((target id : Int) - offset)) := by
  rw [h.distance_eq id hid]
  rfl

theorem spells_tableSwitch {low : Int32} {default : NodeId} (hfits : (Insn.tableSwitch low default ids).Fits)
    (hreach : Reaches distance offset target (default :: ids)) {first content : List UInt8}
    (hfirst : Insn.longDisplacement <$> distance default = .ok first)
    (hcontent : concat (ids.map fun id => Insn.longDisplacement <$> distance id) = .ok content) :
    Spells pool offset (Opcode.tableswitch :: (List.replicate (padding offset) 0 ++ (first ++
      (ofInt32 low ++ (ofInt32 (low + Int32.ofNat ids.length - 1) ++ content)))))
      ⟨offset, .tableSwitch low .dangling [], target default :: ids.map target⟩ := by
  obtain ⟨hne, hhigh⟩ := hfits
  rw [hreach.map_eq List.mem_cons_self] at hfirst
  rw [concat_map_of_forall fun id hid => hreach.map_eq (List.mem_cons_of_mem _ hid)] at hcontent
  cases hfirst
  cases hcontent
  have hspells := @Spells.tableSwitch pool offset (List.replicate (padding offset) 0) (target default) low
    (ids.map target) List.length_replicate (by simpa using hne) (by simpa using hhigh) hreach.forall_inReach
  rwa [List.length_map, List.map_map] at hspells

theorem spells_lookupSwitch {keys : List Int32} {default : NodeId}
    (hfits : (Insn.lookupSwitch default keys ids).Fits) (hcount : keys.length ≤ 65535)
    (hreach : Reaches distance offset target (default :: ids)) {first content : List UInt8}
    (hfirst : Insn.longDisplacement <$> distance default = .ok first)
    (hcontent : concat ((keys.zip ids).map fun pair =>
      (ofInt32 pair.1 ++ ·) <$> (Insn.longDisplacement <$> distance pair.2)) = .ok content) :
    Spells pool offset (Opcode.lookupswitch :: (List.replicate (padding offset) 0 ++ (first ++
      (ofUInt32 keys.length.toUInt32 ++ content))))
      ⟨offset, .lookupSwitch .dangling keys [], target default :: ids.map target⟩ := by
  have hlengths : keys.length = ids.length := hfits
  have hpair : ∀ pair ∈ keys.zip ids, (ofInt32 pair.1 ++ ·) <$> (Insn.longDisplacement <$> distance pair.2) =
      .ok (ofInt32 pair.1 ++ Insn.longDisplacement ((target pair.2 : Int) - offset)) := by
    intro pair hpair
    rw [hreach.map_eq (List.mem_cons_of_mem _ (List.of_mem_zip hpair).2)]
    rfl
  rw [hreach.map_eq List.mem_cons_self] at hfirst
  rw [concat_map_of_forall hpair] at hcontent
  cases hfirst
  cases hcontent
  have hkeys : ((keys.zip ids).map fun pair => (pair.1, target pair.2)).map (·.1) = keys := by
    rw [List.map_map]
    exact List.map_fst_zip (Nat.le_of_eq hlengths)
  have htargets : ((keys.zip ids).map fun pair => (pair.1, target pair.2)).map (·.2) = ids.map target := by
    have hids := congrArg (List.map target) (List.map_snd_zip (Nat.le_of_eq hlengths.symm))
    rwa [List.map_map] at hids ⊢
  have hlength : ((keys.zip ids).map fun pair => (pair.1, target pair.2)).length = keys.length := by
    simp [hlengths]
  have hspells := @Spells.lookupSwitch pool offset (List.replicate (padding offset) 0) (target default)
    ((keys.zip ids).map fun pair => (pair.1, target pair.2)) List.length_replicate (by omega)
    (by rw [htargets]; exact hreach.forall_inReach)
  rwa [hkeys, htargets, hlength, List.map_map] at hspells

end

end Code

/-! ## Sizes -/

namespace Insn

variable {offset : Nat} {index : UInt16} {isLong : Bool} {distance : NodeId → Except Fault Int}

theorem isSome_shortLocal? {code : UInt8} (h : Code.isLocalAccess code = true) (v : UInt16) :
    (shortLocal? code v).isSome = true ↔ v < 4 ∧ code ≠ Opcode.ret := by
  have hfamily : ∀ code : UInt8, Code.isLocalAccess code = true →
      (Opcode.between Opcode.iload Opcode.aload code = true ∨
        Opcode.between Opcode.istore Opcode.astore code = true ↔ code ≠ Opcode.ret) := by
    apply Code.forall_byte
    decide +kernel
  have hsmall : v < 4 ↔ ¬ 4 ≤ v := by
    rw [UInt16.lt_iff_toNat_lt, UInt16.le_iff_toNat_le, Nat.not_le]
  rw [← hfamily code h, hsmall, shortLocal?]
  split_ifs <;> simp_all

theorem length_writeLocal {code : UInt8} (h : Code.isLocalAccess code = true) (v : UInt16) :
    (writeLocal code v).length = if v < 4 ∧ code ≠ Opcode.ret then 1 else if v ≤ 255 then 2 else 4 := by
  have hform := isSome_shortLocal? h v
  rw [writeLocal]
  cases hshort : shortLocal? code v with
  | some short =>
    rw [hshort, Option.isSome_some] at hform
    rw [if_pos (hform.mp rfl)]
    rfl
  | none =>
    rw [hshort, Option.isSome_none] at hform
    rw [if_neg fun hfirst => Bool.false_ne_true (hform.mpr hfirst)]
    dsimp only
    split_ifs <;> rfl

theorem length_target {id : NodeId} {part : List UInt8}
    (h : longDisplacement <$> distance id = .ok part) : part.length = 4 := by
  cases hdistance : distance id with
  | error fault =>
    rw [hdistance] at h
    cases h
  | ok d =>
    rw [hdistance] at h
    cases h
    rfl

theorem length_keyed {pair : Int32 × NodeId} {part : List UInt8}
    (h : (ofInt32 pair.1 ++ ·) <$> (longDisplacement <$> distance pair.2) = .ok part) :
    part.length = 8 := by
  cases hdistance : longDisplacement <$> distance pair.2 with
  | error fault =>
    rw [hdistance] at h
    cases h
  | ok displacement =>
    rw [hdistance] at h
    cases h
    rw [List.length_append, length_target hdistance]
    rfl

/-- Parts of one size. -/
theorem length_flatten_parts {α : Type} {write : α → Except Fault (List UInt8)} {items : List α}
    {parts : List (List UInt8)} {size : Nat}
    (h : List.Forall₂ (fun a part => write a = .ok part) items parts)
    (hsize : ∀ a part, write a = .ok part → part.length = size) :
    parts.flatten.length = size * items.length := by
  induction h with
  | nil => rfl
  | cons hpart _ ih =>
    rw [List.flatten_cons, List.length_append, hsize _ _ hpart, ih, List.length_cons, Nat.mul_succ,
      Nat.add_comm]

/-- An instruction takes as many bytes as the layout gives it. -/
theorem length_write {insn : Insn} (hsized : insn.Sized) {spelling : List UInt8}
    (h : insn.write offset index isLong distance = .ok spelling) :
    spelling.length = insn.codeSize offset index isLong := by
  cases insn with
  | label => cases h; rfl
  | line number => cases h; rfl
  | op code => cases h; rfl
  | push code value =>
    rw [write] at h
    rw [codeSize]
    split_ifs at h ⊢ <;> cases h <;> rfl
  | newArray code => cases h; rfl
  | var code v => cases h; exact length_writeLocal hsized v
  | iinc v delta =>
    cases h
    rw [codeSize, writeIncrement]
    split_ifs <;> rfl
  | ldc stored constant =>
    cases h
    rw [codeSize, writeLoad]
    by_cases hwide : constant.isWide = true
    · rw [if_pos hwide, if_pos (.inl hwide)]
      rfl
    · rw [if_neg hwide]
      by_cases hlarge : 255 < index
      · rw [if_pos hlarge, if_pos (.inr hlarge)]
        rfl
      · rw [if_neg hlarge, if_neg (not_or.mpr ⟨hwide, hlarge⟩)]
        rfl
  | field code stored member => cases h; rfl
  | invoke code stored member interface =>
    rw [write, writeCall] at h
    rw [codeSize]
    split_ifs at h ⊢ with hcode
    · split at h
      · cases h
      · split_ifs at h
        cases h
        rfl
    · cases h
      rfl
  | invokeDynamic stored name descriptor => cases h; rfl
  | type code stored className => cases h; rfl
  | multiNewArray stored descriptor dims => cases h; rfl
  | jump code id =>
    obtain ⟨d, _, h⟩ := bind_eq_ok.mp h
    cases h
    rw [codeSize, writeJump]
    split_ifs <;> rfl
  | tableSwitch low default targets =>
    obtain ⟨first, hfirst, h⟩ := bind_eq_ok.mp h
    obtain ⟨content, hcontent, h⟩ := bind_eq_ok.mp h
    cases h
    obtain ⟨parts, hparts, rfl⟩ := concat_map_eq_ok hcontent
    have hflatten := length_flatten_parts hparts fun id part hpart => length_target hpart
    simp only [codeSize, List.length_append, List.length_cons, List.length_replicate,
      length_target hfirst, hflatten, ofInt32, ofUInt32, List.length_nil]
    omega
  | lookupSwitch default keys targets =>
    obtain ⟨first, hfirst, h⟩ := bind_eq_ok.mp h
    obtain ⟨content, hcontent, h⟩ := bind_eq_ok.mp h
    cases h
    obtain ⟨parts, hparts, rfl⟩ := concat_map_eq_ok hcontent
    have hflatten := length_flatten_parts hparts fun pair part hpart => length_keyed hpart
    have hpairs : (keys.zip targets).length = targets.length := by
      rw [List.length_zip, show keys.length = targets.length from hsized, Nat.min_self]
    simp only [codeSize, List.length_append, List.length_cons, List.length_replicate,
      length_target hfirst, hflatten, hpairs, ofUInt32, List.length_nil]
    omega

end Insn

/-! ## Instructions -/

/-- What is written of an instruction spells the same instruction, with offsets for its targets. -/
theorem Insn.spells_write {pool : ConstantPool} {insn : Insn} {offset : Nat} {index : UInt16}
    {isLong : Bool} {distance : NodeId → Except Fault Int} {target : NodeId → Nat}
    {spelling : List UInt8} (hreal : insn.isReal = true) (hfits : insn.Fits)
    (hnames : insn.Names pool index) (hreach : Code.Reaches distance offset target insn.targets)
    (hjump : ∀ code id, insn = .jump code id → if isLong then code = Opcode.goto ∨ code = Opcode.jsr
      else Layout.isShort ((target id : Int) - offset) = true)
    (hsmall : spelling.length ≤ 65535) (h : insn.write offset index isLong distance = .ok spelling) :
    Code.Spells pool offset spelling
      ⟨offset, (insn.withIndex index).bare, insn.targets.map target⟩ := by
  have hlength := length_write hfits.sized h
  cases insn with
  | label => cases hreal
  | line number => cases hreal
  | op code =>
    cases h
    exact .op hfits
  | push code value =>
    rcases hfits with ⟨rfl, hlow, hhigh⟩ | ⟨rfl, hlow, hhigh⟩
    · cases h
      have hspells := @Code.Spells.bipush pool offset value.toInt8
      rwa [toInt32_toInt8 hlow hhigh] at hspells
    · cases h
      have hspells := @Code.Spells.sipush pool offset value.toInt16
      rwa [toInt32_toInt16 hlow hhigh] at hspells
  | newArray code =>
    cases h
    exact .newArray code
  | var code v =>
    cases h
    exact Code.spells_writeLocal hfits v
  | iinc v delta =>
    cases h
    exact Code.spells_writeIncrement v delta
  | ldc stored constant =>
    cases h
    exact Code.spells_writeLoad hnames
  | field code stored member =>
    cases h
    obtain ⟨interface, hmember⟩ := hnames
    exact .field hfits hmember
  | invoke code stored member interface => exact Code.spells_writeCall hfits hnames h
  | invokeDynamic stored name descriptor =>
    cases h
    exact .invokeDynamic 0 hnames
  | type code stored className =>
    cases h
    exact .type hfits hnames
  | multiNewArray stored descriptor dims =>
    cases h
    exact .multiNewArray dims hnames
  | jump code id =>
    obtain ⟨d, hd, h⟩ := bind_eq_ok.mp h
    rw [hreach.distance_eq id List.mem_cons_self] at hd
    cases hd
    cases h
    have hwidth := hjump code id rfl
    unfold writeJump
    cases isLong with
    | true =>
      rcases hwidth with rfl | rfl
      · exact .gotoW (hreach.inReach List.mem_cons_self)
      · exact .jsrW (hreach.inReach List.mem_cons_self)
    | false => exact .jump hfits hwidth
  | tableSwitch low default ids =>
    obtain ⟨first, hfirst, h⟩ := bind_eq_ok.mp h
    obtain ⟨content, hcontent, h⟩ := bind_eq_ok.mp h
    cases h
    simp only [List.cons_append, List.append_assoc]
    exact Code.spells_tableSwitch hfits hreach hfirst hcontent
  | lookupSwitch default keys ids =>
    obtain ⟨first, hfirst, h⟩ := bind_eq_ok.mp h
    obtain ⟨content, hcontent, h⟩ := bind_eq_ok.mp h
    cases h
    have hcount : keys.length ≤ 65535 := by
      rw [codeSize] at hlength
      have hkeys : keys.length = ids.length := hfits
      omega
    simp only [List.cons_append, List.append_assoc]
    exact Code.spells_lookupSwitch hfits hcount hreach hfirst hcontent

end DirectCall
