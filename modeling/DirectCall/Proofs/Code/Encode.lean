import DirectCall.Proofs.ClassFile.ReadBack
import DirectCall.Proofs.ConstantPool.Growth
import DirectCall.Proofs.ConstantPool.Named
import DirectCall.Transformation.Class

/-!
# Writing code only adds to the pool

Whatever is written of a body (its code, its tables, its stack map), the pool is changed by additions
alone, and also if the writing fails on the way (`adds_codeAttribute`). The attributes that an encoded body is
given tell of the same lines and of the same ranges of local variables (`EncodedCode.toAttribute_spec`), whatever
attributes of other names come behind them.
-/

namespace DirectCall

open ConstantPool

/-! ## Instructions and tables -/

theorem Insn.adds_poolIndex (insn : Insn) : insn.poolIndex.Adds := by
  unfold Insn.poolIndex
  split
  case h_1 index constant => exact (adds_pure index).ite (adds_constantIndex constant)
  case h_2 index m => exact (adds_pure index).ite (adds_fieldIndex m)
  case h_3 index m interface => exact (adds_pure index).ite (adds_methodIndex m interface)
  case h_4 index className => exact (adds_pure index).ite (adds_classIndex className)
  case h_5 index descriptor _ => exact (adds_pure index).ite (adds_classIndex descriptor)
  case h_6 index _ _ => exact (adds_pure index).ite (adds_throw _)
  case h_7 => exact adds_pure 0

theorem Layout.adds_ofList (list : InsnList) : (Layout.ofList list).Adds := by
  unfold Layout.ofList
  rw [Array.mapM_eq_mapM_toList, map_eq_pure_bind, bind_assoc]
  refine (Edit.Adds.mapM Insn.adds_poolIndex _).bind fun indices => ?_
  rw [pure_bind]
  exact adds_pure _

theorem Layout.adds_handler? (l : Layout) (offsets : Array Nat) (r : Region) :
    (l.handler? offsets r).Adds := by
  refine (adds_liftM _).bind fun start => (adds_liftM _).bind fun stop => ?_
  refine (adds_pure none).ite ?_
  have hrange : ∀ catchType, Edit.Adds (do
      let handler ← (liftM (l.offsetOf offsets r.handler) : Edit Nat)
      return some (HandlerRange.mk start.toUInt16 stop.toUInt16 handler.toUInt16 catchType)) :=
    fun catchType => (adds_liftM _).bind fun handler => adds_pure _
  split
  · exact (adds_classIndex _).bind hrange
  · exact (adds_pure 0).bind hrange

theorem Body.adds_encode (body : Body) : body.encode.Adds :=
  (Layout.adds_ofList body.insns).bind fun layout => (adds_liftM _).bind fun _ =>
    (adds_liftM _).bind fun _ => (Edit.Adds.mapM (layout.adds_handler? _) _).bind fun _ =>
      (adds_mk_pure _).bind fun _ => adds_pure _

namespace EncodedCode

theorem adds_tableAttribute {α : Type} (name : String) (entries : List α) (write : α → List UInt8) :
    (tableAttribute name entries write).Adds :=
  (adds_pure []).ite <| (adds_liftM _).bind fun _ => (adds_utf8Index name).bind fun _ => adds_pure _

theorem adds_toAttribute (c : EncodedCode) (maxStack maxLocals : UInt16) (extra : List Attribute) :
    (c.toAttribute maxStack maxLocals extra).Adds :=
  (adds_tableAttribute _ _ _).bind fun _ => (adds_tableAttribute _ _ _).bind fun _ =>
    (adds_tableAttribute _ _ _).bind fun _ => adds_pure _

end EncodedCode

/-! ## Stack maps -/

namespace StackMap

theorem adds_writeType (positions : Positions) (offsets : Array Nat) (t : VerificationType) :
    (writeType positions offsets t).Adds := by
  unfold writeType
  split
  case h_8 className => exact (adds_classIndex className).bind fun _ => adds_pure _
  case h_9 site _ =>
    split
    · exact adds_pure _
    · exact adds_throw _
  all_goals exact adds_pure _

theorem adds_writeTypes (positions : Positions) (offsets : Array Nat) (types : List VerificationType) :
    (writeTypes positions offsets types).Adds :=
  (adds_liftM _).bind fun _ =>
    (Edit.Adds.mapM (adds_writeType positions offsets) types).bind fun _ => adds_pure _

theorem adds_writeFrame (positions : Positions) (offsets : Array Nat) (written : Written)
    (entry : Nat × Frame VerificationType) : (writeFrame positions offsets written entry).Adds :=
  (adds_writeTypes _ _ _).bind fun _ => (adds_writeTypes _ _ _).bind fun _ => adds_pure _

theorem adds_attribute? (map : StackMap) (body : Body) (offsets : Array Nat) :
    (map.attribute? body offsets).Adds :=
  (adds_pure none).ite <| (adds_liftM _).bind fun _ =>
    (Edit.Adds.foldlM (adds_writeFrame _ _) _ _).bind fun _ =>
      (adds_utf8Index _).bind fun _ => adds_pure _

end StackMap

/-! ## The code attribute -/

namespace ClassFile

/-- The steps behind the stack map: the attribute is put together and named. -/
def finishAttribute (encoded : EncodedCode) (map : StackMap) (table : Option Attribute) :
    Edit Attribute := do
  let code ← encoded.toAttribute map.maxStack map.maxLocals table.toList
  let bytes ← code.toBytes
  return ⟨← utf8Index "Code", bytes⟩

/-- The stack map of a body, if class files of the version have one. -/
def mapTable? (major : UInt16) (map : StackMap) (body : Body) (encoded : EncodedCode) :
    Edit (Option Attribute) :=
  if stackMapVersion ≤ major then map.attribute? body encoded.offsets else pure none

theorem codeAttribute_eq (major : UInt16) (map : StackMap) (body : Body) :
    codeAttribute major map body = body.encode >>= fun encoded =>
      mapTable? major map body encoded >>= finishAttribute encoded map := by
  unfold codeAttribute mapTable?
  refine bind_congr fun encoded => ?_
  split_ifs <;> rfl

theorem adds_finishAttribute (encoded : EncodedCode) (map : StackMap) (table : Option Attribute) :
    (finishAttribute encoded map table).Adds :=
  (encoded.adds_toAttribute _ _ _).bind fun _ => (adds_liftM _).bind fun _ =>
    (adds_utf8Index _).bind fun _ => adds_pure _

theorem adds_mapTable? (major : UInt16) (map : StackMap) (body : Body) (encoded : EncodedCode) :
    (mapTable? major map body encoded).Adds :=
  (map.adds_attribute? body encoded.offsets).ite (adds_pure none)

theorem adds_codeAttribute (major : UInt16) (map : StackMap) (body : Body) :
    (codeAttribute major map body).Adds := by
  rw [codeAttribute_eq]
  exact body.adds_encode.bind fun encoded => (adds_mapTable? major map body encoded).bind
    (adds_finishAttribute encoded map)

/-- What is written for the code of a method is named so and can be read. -/
theorem codeAttribute_spec {pool pool' : ConstantPool} {major : UInt16} {map : StackMap} {body : Body}
    {a : Attribute} (hsmall : pool.size ≤ 65535)
    (h : pool.edit (codeAttribute major map body) = (.ok a, pool')) :
    pool'.utf8 a.nameIndex = .ok "Code" ∧ ∃ code, CodeAttribute.parse a.info = .ok code := by
  rw [codeAttribute_eq] at h
  obtain ⟨encoded, pool₁, hencoded, htail⟩ := edit_bind_eq_ok.mp h
  obtain ⟨table, pool₂, htable, hfinish⟩ := edit_bind_eq_ok.mp htail
  obtain ⟨code, pool₃, hcode, hbytes⟩ := edit_bind_eq_ok.mp hfinish
  obtain ⟨info, pool₄, hinfo, hname⟩ := edit_bind_eq_ok.mp hbytes
  obtain ⟨index, pool₅, hindex, hpure⟩ := edit_bind_eq_ok.mp hname
  obtain ⟨hwritten, rfl⟩ : code.toBytes = .ok info ∧ pool₃ = pool₄ := Prod.mk.inj hinfo
  cases hpure
  have hgrows : pool.Grows pool₁ := by
    have hadds := body.adds_encode pool
    rwa [hencoded] at hadds
  have hgrows' : pool₁.Grows pool₂ := by
    have hadds := adds_mapTable? major map body encoded pool₁
    rwa [htable] at hadds
  have hgrows'' : pool₂.Grows pool₃ := by
    have hadds := encoded.adds_toAttribute map.maxStack map.maxLocals table.toList pool₂
    rwa [hcode] at hadds
  exact ⟨utf8_of_utf8Index (hgrows''.small (hgrows'.small (hgrows.small hsmall))) hindex, code,
    CodeAttribute.parse_toBytes hwritten⟩

end ClassFile

/-! ## Tables are read back -/

open Bytes Bytes.Reader ConstantPool

namespace Code

/-- The attributes add these lines and local variables to what is known. -/
def Tells (pool : ConstantPool) (attributes : List Attribute) (lines : List (Nat × UInt16))
    (locals : List LocalRange) : Prop :=
  ∀ tables, attributes.foldlM (Tables.add pool) tables =
    .ok ⟨tables.lines ++ lines, tables.locals ++ locals⟩

/-- The names of the tables that are read. -/
def tableNames : List String := [lineTable, localTable, localTypeTable]

section

variable {pool : ConstantPool} {attributes attributes' : List Attribute}
  {lines lines' : List (Nat × UInt16)} {locals locals' : List LocalRange}

theorem tells_nil : Tells pool [] [] [] := by
  intro tables
  rw [List.append_nil, List.append_nil]
  rfl

theorem Tells.append (h : Tells pool attributes lines locals) (h' : Tells pool attributes' lines' locals') :
    Tells pool (attributes ++ attributes') (lines ++ lines') (locals ++ locals') := by
  intro tables
  rw [List.foldlM_append, h tables, ← List.append_assoc, ← List.append_assoc]
  exact h' _

theorem Tables.add_grow {pool' : ConstantPool} (hgrows : pool.Grows pool') {tables tables' : Tables}
    {a : Attribute} (h : Tables.add pool tables a = .ok tables') :
    Tables.add pool' tables a = .ok tables' := by
  obtain ⟨name, hname, h⟩ := bind_eq_ok.mp h
  exact bind_eq_ok.mpr ⟨name, hgrows.utf8 hname, h⟩

/-- A pool that grows changes nothing that attributes tell. -/
theorem Tells.grow {pool' : ConstantPool} (h : Tells pool attributes lines locals)
    (hgrows : pool.Grows pool') : Tells pool' attributes lines locals := by
  have hfold : ∀ (tables tables' : Tables), attributes.foldlM (Tables.add pool) tables = .ok tables' →
      attributes.foldlM (Tables.add pool') tables = .ok tables' := by
    clear h
    induction attributes with
    | nil => exact fun _ _ h => h
    | cons a rest ih =>
      intro tables tables' h
      rw [List.foldlM_cons] at h ⊢
      obtain ⟨next, hnext, h⟩ := bind_eq_ok.mp h
      exact bind_eq_ok.mpr ⟨next, Tables.add_grow hgrows hnext, ih next tables' h⟩
  exact fun tables => hfold tables _ (h tables)

theorem tells_lines {a : Attribute} (hname : pool.utf8 a.nameIndex = .ok lineTable)
    (hlines : (Reader.table readLine).of a.info = .ok lines) : Tells pool [a] lines [] := by
  intro tables
  rw [List.foldlM_cons, Tables.add, hname, List.append_nil]
  refine bind_eq_ok.mpr ⟨_, bind_eq_ok.mpr ⟨_, rfl, ?_⟩, rfl⟩
  rw [if_pos rfl]
  exact bind_eq_ok.mpr ⟨lines, hlines, rfl⟩

theorem tells_locals {a : Attribute} {isTypeEntry : Bool}
    (hname : pool.utf8 a.nameIndex = .ok (if isTypeEntry then localTypeTable else localTable))
    (hlocals : (Reader.table (readLocal isTypeEntry)).of a.info = .ok locals) :
    Tells pool [a] [] locals := by
  intro tables
  rw [List.foldlM_cons, Tables.add, hname, List.append_nil]
  refine bind_eq_ok.mpr ⟨_, bind_eq_ok.mpr ⟨_, rfl, ?_⟩, rfl⟩
  cases isTypeEntry with
  | false =>
    rw [if_neg Bool.false_ne_true, if_neg (by decide), if_pos rfl]
    exact bind_eq_ok.mpr ⟨locals, hlocals, rfl⟩
  | true =>
    rw [if_pos rfl, if_neg (by decide), if_neg (by decide), if_pos rfl]
    exact bind_eq_ok.mpr ⟨locals, hlocals, rfl⟩

/-- Attributes of other names tell nothing. -/
theorem tells_others (h : ∀ a ∈ attributes, ∃ name, pool.utf8 a.nameIndex = .ok name ∧ name ∉ tableNames) :
    Tells pool attributes [] [] := by
  induction attributes with
  | nil => exact tells_nil
  | cons a rest ih =>
    obtain ⟨name, hname, hother⟩ := h a List.mem_cons_self
    simp only [tableNames, List.mem_cons, List.not_mem_nil, or_false, not_or] at hother
    intro tables
    rw [List.foldlM_cons, Tables.add, hname]
    refine bind_eq_ok.mpr ⟨tables, bind_eq_ok.mpr ⟨name, rfl, ?_⟩,
      ih (fun b hb => h b (List.mem_cons_of_mem _ hb)) tables⟩
    rw [if_neg hother.1, if_neg hother.2.1, if_neg hother.2.2]
    rfl

end

end Code

namespace EncodedCode

open Code

/-- A local variable entry as it is read from one of the two tables. -/
def rangeOf (isTypeEntry : Bool) (e : LocalEntry × UInt16 × UInt16) : LocalRange :=
  ⟨e.2.1.toNat, e.2.1.toNat + e.2.2.toNat, e.1.nameIndex, e.1.descriptorIndex, e.1.index, isTypeEntry⟩

theorem reads_writeLine (e : UInt16 × UInt16) : readLine.Reads (writeLine e) (e.1.toNat, e.2) :=
  (reads_u16 e.1).bind ((reads_u16 e.2).bind_pure fun line => (e.1.toNat, line))

theorem reads_writeLocalEntry (isTypeEntry : Bool) (e : LocalEntry × UInt16 × UInt16) :
    (readLocal isTypeEntry).Reads (writeLocalEntry e) (rangeOf isTypeEntry e) := by
  refine Reads.of_eq (?_ : (readLocal isTypeEntry).Reads (ofUInt16 e.2.1 ++ (ofUInt16 e.2.2 ++
    (ofUInt16 e.1.nameIndex ++ (ofUInt16 e.1.descriptorIndex ++ ofUInt16 e.1.index))))
    (rangeOf isTypeEntry e)) (by simp only [writeLocalEntry, List.append_assoc])
  exact (reads_u16 _).bind <| (reads_u16 _).bind <| (reads_u16 _).bind <| (reads_u16 _).bind <|
    (reads_u16 e.1.index).bind_pure fun index => LocalRange.mk e.2.1.toNat
      (e.2.1.toNat + e.2.2.toNat) e.1.nameIndex e.1.descriptorIndex index isTypeEntry

section

variable {pool pool' : ConstantPool} {attributes : List Attribute}

/-- A table is left out if it is empty, and otherwise it has its name and can be read. -/
theorem tableAttribute_spec {α β : Type} {name : String} {entries : List α} {write : α → List UInt8}
    {read : Reader β} {f : α → β} (hsmall : pool.size ≤ 65535)
    (hread : ∀ a, read.Reads (write a) (f a))
    (h : pool.edit (tableAttribute name entries write) = (.ok attributes, pool')) :
    entries = [] ∧ attributes = [] ∨ ∃ a, attributes = [a] ∧ pool'.utf8 a.nameIndex = .ok name ∧
      (Reader.table read).of a.info = .ok (entries.map f) := by
  unfold tableAttribute at h
  split_ifs at h with hempty
  · cases h
    exact .inl ⟨List.isEmpty_iff.mp hempty, rfl⟩
  · obtain ⟨info, pool₁, hinfo, hrest⟩ := edit_bind_eq_ok.mp h
    obtain ⟨htable, rfl⟩ : Bytes.table entries (fun e => .ok (write e)) = .ok info ∧ pool = pool₁ :=
      Prod.mk.inj hinfo
    obtain ⟨index, pool₂, hindex, hlast⟩ := edit_bind_eq_ok.mp hrest
    cases hlast
    refine .inr ⟨⟨index, info⟩, rfl, utf8_of_utf8Index hsmall hindex, ?_⟩
    have hinfo : (Reader.table read).Reads info (entries.map f) := by
      refine reads_table_map htable fun a part hpart => ?_
      cases hpart
      exact hread a
    rw [Reader.of, hinfo.apply_start]
    rfl

theorem tells_tableLines {entries : List (UInt16 × UInt16)} (hsmall : pool.size ≤ 65535)
    (h : pool.edit (tableAttribute lineTable entries writeLine) = (.ok attributes, pool')) :
    Tells pool' attributes (entries.map fun e => (e.1.toNat, e.2)) [] := by
  rcases tableAttribute_spec hsmall reads_writeLine h with ⟨rfl, rfl⟩ | ⟨a, rfl, hname, hread⟩
  · exact tells_nil
  · exact tells_lines hname hread

theorem tells_tableLocals (isTypeEntry : Bool) {entries : List (LocalEntry × UInt16 × UInt16)}
    (hsmall : pool.size ≤ 65535)
    (h : pool.edit (tableAttribute (if isTypeEntry then localTypeTable else localTable) entries
      writeLocalEntry) = (.ok attributes, pool')) :
    Tells pool' attributes [] (entries.map (rangeOf isTypeEntry)) := by
  rcases tableAttribute_spec hsmall (reads_writeLocalEntry isTypeEntry) h with
    ⟨rfl, rfl⟩ | ⟨a, rfl, hname, hread⟩
  · exact tells_nil
  · exact tells_locals hname hread

/-- The attributes of a body tell of its lines, then of its local variables table by table. -/
theorem toAttribute_spec {c : EncodedCode} {maxStack maxLocals : UInt16} {extra : List Attribute}
    {a : CodeAttribute} (hsmall : pool.size ≤ 65535)
    (hextra : ∀ e ∈ extra, ∃ name, pool.utf8 e.nameIndex = .ok name ∧ name ∉ tableNames)
    (h : pool.edit (c.toAttribute maxStack maxLocals extra) = (.ok a, pool')) :
    ∃ attributes, a = ⟨maxStack, maxLocals, c.code, c.handlers, attributes⟩ ∧
      Tables.ofAttributes pool' attributes = .ok ⟨c.lines.map fun e => (e.1.toNat, e.2),
        (c.locals.filter (!·.1.isTypeEntry)).map (rangeOf false) ++
          (c.locals.filter (·.1.isTypeEntry)).map (rangeOf true)⟩ := by
  obtain ⟨lines, pool₁, hlines, h₁⟩ := edit_bind_eq_ok.mp h
  obtain ⟨locals, pool₂, hlocals, h₂⟩ := edit_bind_eq_ok.mp h₁
  obtain ⟨types, pool₃, htypes, h₃⟩ := edit_bind_eq_ok.mp h₂
  cases h₃
  have hgrows₁ := (adds_tableAttribute _ _ _).grows hlines
  have hgrows₂ := (adds_tableAttribute _ _ _).grows hlocals
  have hgrows₃ := (adds_tableAttribute _ _ _).grows htypes
  have hsmall₁ := hgrows₁.small hsmall
  have htells := ((tells_tableLines hsmall hlines).grow (hgrows₂.trans hgrows₃)).append
    ((tells_tableLocals false hsmall₁ hlocals).grow hgrows₃)
  have hothers : Tells pool' extra [] [] := tells_others fun e he => by
    obtain ⟨name, hname, hother⟩ := hextra e he
    exact ⟨name, (hgrows₁.trans (hgrows₂.trans hgrows₃)).utf8 hname, hother⟩
  have hall := (htells.append (tells_tableLocals true (hgrows₂.small hsmall₁) htypes)).append hothers
  refine ⟨_, rfl, (hall ⟨[], []⟩).trans ?_⟩
  simp only [List.nil_append, List.append_nil]

end

end EncodedCode

end DirectCall
