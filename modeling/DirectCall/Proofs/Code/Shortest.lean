import DirectCall.Proofs.Code.Written

/-!
# Shortest spellings

A spelling of an instruction is shortest (`Code.IsShortest`) if it is tidy and no tidy spelling of the same
instruction takes fewer bytes. An instruction that was read from its shortest spelling is written that way
again (`Code.IsShortest.write_link`), unless it loads a dynamic constant of two slots.
-/

namespace DirectCall

open Bytes

/-- Apart from dynamic constants, the constants of two slots are those of type `long` or `double`. -/
theorem Constant.isWide_eq {constant : Constant}
    (h : ∀ d, constant = .dynamic d → Descriptor.isWide d = false) :
    constant.isWide = Descriptor.isWide constant.descriptor := by
  cases constant with
  | dynamic d => exact (h d rfl).symm
  | _ => rfl

namespace Code

/-- Bytes that tell nothing are zero, a call through an interface counts the slots of its arguments, and
constants of two slots are loaded by `ldc2_w`, and no others. -/
def IsTidy (offset : Nat) (spelling : List UInt8) : Insn → Prop
  | .tableSwitch _ _ _ => (spelling.drop 1).take (padding offset) = List.replicate (padding offset) 0
  | .lookupSwitch _ _ _ => (spelling.drop 1).take (padding offset) = List.replicate (padding offset) 0
  | .invoke code _ m _ => code = Opcode.invokeinterface → ∃ parsed count,
    MethodDescriptor.parse m.descriptor = .ok parsed ∧ spelling.drop 3 = [count, 0] ∧
      count.toNat = parsed.paramSlots + 1
  | .invokeDynamic _ _ _ => spelling.drop 3 = [0, 0]
  | .ldc _ constant => spelling.head? = some Opcode.ldc2W ↔ Descriptor.isWide constant.descriptor = true
  | _ => True

/-- A tidy spelling that is not longer than any other one. -/
structure IsShortest (pool : ConstantPool) (offset : Nat) (spelling : List UInt8) (l : Located) : Prop where
  spells : Spells pool offset spelling l
  tidy : IsTidy offset spelling l.insn
  least : ∀ other, Spells pool offset other l → IsTidy offset other l.insn → spelling.length ≤ other.length

/-- The spelling of a jump with a displacement of four bytes. -/
def isLongJump (spelling : List UInt8) : Bool :=
  spelling.head? == some Opcode.gotoW || spelling.head? == some Opcode.jsrW

variable {pool : ConstantPool} {offset : Nat} {spelling : List UInt8}

theorem isLongJump_append (hne : spelling ≠ []) (rest : List UInt8) :
    isLongJump (spelling ++ rest) = isLongJump spelling := by
  rw [isLongJump, isLongJump, List.head?_append_of_ne_nil spelling hne]

theorem IsShortest.ne_nil {l : Located} (h : IsShortest pool offset spelling l) : spelling ≠ [] :=
  List.length_pos_iff.mp h.spells.readsAs.length_pos

/-- A jump that is not spelt long reaches its target with two bytes. -/
theorem Spells.isShort_of_link {offset : Nat} {spelling : List UInt8} {l : Located}
    (h : Spells pool offset spelling l) (hshort : isLongJump spelling = false) (labels : Labels) {op : UInt8}
    {id : NodeId} (hlink : l.link labels = .jump op id) :
    ∃ t ∈ l.targets, id = labels.find t ∧ Layout.isShort ((t : Int) - offset) = true := by
  cases h with
  | jump h hreach =>
    cases hlink
    exact ⟨_, List.mem_cons_self, rfl, hreach⟩
  | gotoW hreach => exact absurd hshort (by simp [isLongJump])
  | jsrW hreach => exact absurd hshort (by simp [isLongJump])
  | _ => cases hlink

/-! ## Local variables -/

theorem writeLocal_shortLoad : ∀ code : UInt8, Opcode.between Opcode.iload0 Opcode.aload3 code = true →
    Insn.writeLocal (Opcode.iload + (code - Opcode.iload0) / 4) ((code - Opcode.iload0) % 4).toUInt16 =
      [code] := by
  apply forall_byte
  decide +kernel

theorem writeLocal_shortStore : ∀ code : UInt8, Opcode.between Opcode.istore0 Opcode.astore3 code = true →
    Insn.writeLocal (Opcode.istore + (code - Opcode.istore0) / 4) ((code - Opcode.istore0) % 4).toUInt16 =
      [code] := by
  apply forall_byte
  decide +kernel

theorem toUInt16_le (b : UInt8) : b.toUInt16 ≤ 255 := by
  rw [UInt16.le_iff_toNat_le, UInt8.toNat_toUInt16]
  exact Nat.le_of_lt_succ b.toNat_lt

theorem toUInt8_toUInt16 (b : UInt8) : b.toUInt16.toUInt8 = b := by
  simp

theorem fitsByte_toInt16 (delta : Int8) : Insn.fitsByte delta.toInt16 = true := by
  rw [Insn.fitsByte, Bool.and_eq_true, decide_eq_true_eq, decide_eq_true_eq, Int16.le_iff_toInt_le,
    Int16.le_iff_toInt_le, Int8.toInt_toInt16]
  exact ⟨delta.le_toInt, delta.toInt_le⟩

theorem writeLocal_of_least {code : UInt8} {v : UInt16} (h : isLocalAccess code = true)
    (hspelling : spelling = [code, v.toUInt8] ∧ v ≤ 255 ∨ spelling = Opcode.wide :: code :: ofUInt16 v)
    (hleast : spelling.length ≤ (Insn.writeLocal code v).length) : Insn.writeLocal code v = spelling := by
  rw [Insn.length_writeLocal h] at hleast
  have hform := Insn.isSome_shortLocal? h v
  rw [Insn.writeLocal]
  cases hshort : Insn.shortLocal? code v with
  | some short =>
    rw [hshort, Option.isSome_some] at hform
    rw [if_pos (hform.mp rfl)] at hleast
    rcases hspelling with ⟨rfl, _⟩ | rfl
    · simp at hleast
    · simp at hleast
  | none =>
    rw [hshort, Option.isSome_none] at hform
    rw [if_neg fun hfirst => Bool.false_ne_true (hform.mpr hfirst)] at hleast
    dsimp only
    rcases hspelling with ⟨rfl, hbyte⟩ | rfl
    · rw [if_pos hbyte]
    · split_ifs at hleast ⊢ with hbyte
      · simp [ofUInt16] at hleast
      · rfl

/-! ## Constants and calls -/

theorem writeLoad_of_least {constant : Constant} {index : UInt16}
    (hwide : constant.isWide = Descriptor.isWide constant.descriptor)
    (htidy : spelling.head? = some Opcode.ldc2W ↔ Descriptor.isWide constant.descriptor = true)
    (hspelling : spelling = [Opcode.ldc, index.toUInt8] ∧ index ≤ 255 ∨
      spelling = Opcode.ldcW :: ofUInt16 index ∧ 255 < index ∨ spelling = Opcode.ldc2W :: ofUInt16 index) :
    Insn.writeLoad constant index = spelling := by
  rw [← hwide] at htidy
  rw [Insn.writeLoad]
  rcases hspelling with ⟨rfl, hbyte⟩ | ⟨rfl, hlarge⟩ | rfl
  · rw [if_neg (mt htidy.mpr (by simp; decide)), if_neg (by simpa using hbyte)]
  · rw [if_neg (mt htidy.mpr (by simp; decide)), if_pos hlarge]
  · rw [if_pos (htidy.mp rfl)]

theorem writeCall_of_tidy {index : UInt16} {m : MemberRef} {count reserved : UInt8} {parsed : MethodDescriptor}
    (hparsed : MethodDescriptor.parse m.descriptor = .ok parsed) (hcount : count.toNat = parsed.paramSlots + 1)
    (hreserved : reserved = 0) :
    Insn.writeCall Opcode.invokeinterface m index =
      .ok (Opcode.invokeinterface :: (ofUInt16 index ++ [count, reserved])) := by
  have hbound := count.toNat_lt
  have hbyte : (parsed.paramSlots + 1).toUInt8 = count := by rw [← hcount, Nat.toUInt8_eq, UInt8.ofNat_toNat]
  rw [Insn.writeCall, if_pos rfl, hparsed]
  dsimp only
  rw [if_pos (by omega), hbyte, hreserved]
  rfl

theorem isShortest_op {code : UInt8} (h : isPlain code = true) :
    IsShortest pool offset [code] ⟨offset, .op code, []⟩ :=
  ⟨.op h, trivial, fun _ hother _ => hother.readsAs.length_pos⟩

/-- A constant of two slots has no spelling but that of `ldc2_w`. -/
theorem isShortest_ldc2W {index : UInt16} {constant : Constant} (h : pool.loadable index = .ok constant)
    (hwide : Descriptor.isWide constant.descriptor = true) :
    IsShortest pool offset (Opcode.ldc2W :: ofUInt16 index) ⟨offset, .ldc index constant, []⟩ := by
  refine ⟨.ldcLong (.inr rfl) h, iff_of_true rfl hwide, fun other hother htidy => ?_⟩
  have hhead : other.head? = some Opcode.ldc2W := htidy.mpr hwide
  cases hother with
  | ldc h => exact absurd hhead (by simp; decide)
  | ldcLong hcode h => exact Nat.le_refl _

/-! ## Instructions -/

/-- Read from its shortest spelling, an instruction is written that way again. -/
theorem IsShortest.write_link {l : Located} (h : IsShortest pool offset spelling l)
    (hdynamic : ∀ index d, l.insn = .ldc index (.dynamic d) → Descriptor.isWide d = false)
    (labels : Labels) {distance : NodeId → Except Fault Int}
    (hdistance : ∀ t ∈ l.targets, distance (labels.find t) = .ok ((t : Int) - offset)) :
    (l.link labels).write offset l.insn.storedIndex (isLongJump spelling) distance = .ok spelling := by
  obtain ⟨hspells, htidy, hleast⟩ := h
  have hdisplacement : ∀ t ∈ l.targets, Insn.longDisplacement <$> distance (labels.find t) =
      .ok (Insn.longDisplacement ((t : Int) - offset)) := by
    intro t ht
    rw [hdistance t ht]
    rfl
  cases hspells with
  | op h => rfl
  | bipush value => simp [Located.link, Insn.write]
  | sipush value =>
    have hother : Opcode.sipush ≠ Opcode.bipush := by decide
    simp [Located.link, Insn.write, hother]
  | @ldc index constant h =>
    have hwide := @Constant.isWide_eq constant fun d hd => hdynamic index.toUInt16 d (by rw [hd])
    refine congrArg _ (?_ : Insn.writeLoad constant index.toUInt16 = _)
    refine writeLoad_of_least hwide htidy ?_
    exact .inl ⟨by rw [toUInt8_toUInt16], toUInt16_le index⟩
  | @ldcLong code index constant hcode h =>
    have hwide := @Constant.isWide_eq constant fun d hd => hdynamic index d (by rw [hd])
    refine congrArg _ (?_ : Insn.writeLoad constant index = _)
    refine writeLoad_of_least hwide htidy ?_
    rcases hcode with rfl | rfl
    · refine .inr (.inl ⟨rfl, ?_⟩)
      by_contra hsmall
      have hbyte : index ≤ 255 := by simpa using hsmall
      have hshort := @Spells.ldc pool offset index.toUInt8 constant (by rw [toUInt16_toUInt8 hbyte]; exact h)
      rw [toUInt16_toUInt8 hbyte] at hshort
      have hnarrow : ¬ Descriptor.isWide constant.descriptor = true := mt htidy.mpr (by simp; decide)
      have hle := hleast _ hshort (iff_of_false (by simp; decide) hnarrow)
      simp [ofUInt16] at hle
    · exact .inr (.inr rfl)
  | @var code h v =>
    refine congrArg _ (writeLocal_of_least h (.inl ⟨by rw [toUInt8_toUInt16], toUInt16_le v⟩) ?_)
    exact hleast _ (spells_writeLocal h _) trivial
  | @shortLoad code h => exact congrArg _ (writeLocal_shortLoad code h)
  | @shortStore code h => exact congrArg _ (writeLocal_shortStore code h)
  | @wideVar code h v =>
    exact congrArg _ (writeLocal_of_least h (.inr rfl) (hleast _ (spells_writeLocal h v) trivial))
  | iinc v delta =>
    refine congrArg Except.ok ?_
    rw [Insn.writeIncrement, if_pos ⟨toUInt16_le v, fitsByte_toInt16 delta⟩, toUInt8_toUInt16]
    simp
  | wideIinc v delta =>
    refine congrArg Except.ok ?_
    have hle := hleast _ (spells_writeIncrement v delta) trivial
    unfold Insn.writeIncrement at hle ⊢
    split_ifs at hle ⊢
    · simp [ofInt16, ofUInt16] at hle
    · rfl
  | @jump code h target hshort =>
    have hlong : isLongJump (code :: ofInt16 (Int16.ofInt ((target : Int) - offset))) = false := by
      have hrule : ∀ code, isShortJump code = true → code ≠ Opcode.gotoW ∧ code ≠ Opcode.jsrW := by
        apply forall_byte
        decide +kernel
      simp [isLongJump, hrule code h]
    refine bind_eq_ok.mpr ⟨_, hdistance target List.mem_cons_self, ?_⟩
    rw [hlong]
    rfl
  | @gotoW target hreach => exact bind_eq_ok.mpr ⟨_, hdistance target List.mem_cons_self, rfl⟩
  | @jsrW target hreach => exact bind_eq_ok.mpr ⟨_, hdistance target List.mem_cons_self, rfl⟩
  | @tableSwitch filler default low targets hfiller hne hhigh hreach =>
    rw [IsTidy, List.drop_succ_cons, List.drop_zero, List.take_left' hfiller] at htidy
    have hcontent := concat_map_of_forall fun t ht => hdisplacement t (List.mem_cons_of_mem _ ht)
    rw [show (fun t => Insn.longDisplacement <$> distance (labels.find t)) =
      (fun id => Insn.longDisplacement <$> distance id) ∘ labels.find from rfl, ← List.map_map] at hcontent
    refine bind_eq_ok.mpr ⟨_, hdisplacement default List.mem_cons_self, bind_eq_ok.mpr ⟨_, hcontent, ?_⟩⟩
    refine congrArg Except.ok ?_
    simp [htidy]
  | @lookupSwitch filler default pairs hfiller hcount hreach =>
    rw [IsTidy, List.drop_succ_cons, List.drop_zero, List.take_left' hfiller] at htidy
    have hzip : (pairs.map (·.1)).zip ((pairs.map (·.2)).map labels.find) =
        pairs.map fun pair => (pair.1, labels.find pair.2) := by
      rw [List.map_map, List.zip_map']
      rfl
    have hcontent : concat (((pairs.map (·.1)).zip ((pairs.map (·.2)).map labels.find)).map fun pair =>
        (ofInt32 pair.1 ++ ·) <$> (Insn.longDisplacement <$> distance pair.2)) =
        .ok (pairs.map fun pair => ofInt32 pair.1 ++
          Insn.longDisplacement ((pair.2 : Int) - offset)).flatten := by
      rw [hzip, List.map_map]
      refine concat_map_of_forall fun pair hpair => ?_
      dsimp only [Function.comp_apply]
      rw [hdisplacement pair.2 (List.mem_cons_of_mem _ (List.mem_map_of_mem hpair))]
      rfl
    refine bind_eq_ok.mpr ⟨_, hdisplacement default List.mem_cons_self, bind_eq_ok.mpr ⟨_, hcontent, ?_⟩⟩
    refine congrArg Except.ok ?_
    simp [htidy]
  | field hcode h => rfl
  | @invoke code index m interface hcode hother h =>
    refine (?_ : Insn.writeCall code m index = _)
    rw [Insn.writeCall, if_neg hother]
  | @invokeInterface index m interface count reserved h =>
    obtain ⟨parsed, count', hparsed, hrest, hcount⟩ := htidy rfl
    cases hrest
    exact writeCall_of_tidy hparsed hcount rfl
  | @invokeDynamic index name descriptor reserved h =>
    have hzero : ofUInt16 reserved = [0, 0] := htidy
    rw [hzero]
    rfl
  | type hcode h => rfl
  | newArray code => rfl
  | multiNewArray dims h => rfl

end Code

end DirectCall
