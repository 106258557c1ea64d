import DirectCall.Proofs.Code.Emitted
import DirectCall.Proofs.Code.Linked
import DirectCall.Proofs.Verification.Targets

/-!
# Where decoded offsets lead

Jumps, switches, exception ranges, lines and local variables refer to offsets. In a body that was decoded each
of these offsets has a label, which stands once and ahead of the instruction there, and every instruction has
its lines in front of it. An offset that is none of an instruction and not the end makes the decoding fail
(`Body.decode_resolves`).
-/

namespace DirectCall

open Bytes Bytes.Reader

/-! ## Tables in bytes -/

/-- Behind their number in two bytes the items stand one after the other; other bytes may follow. -/
def Bytes.Lists {α : Type} (P : List UInt8 → α → Prop) (data : List UInt8) (items : List α) : Prop :=
  ∃ (count : UInt16) (parts : List (List UInt8)) (rest : List UInt8), count.toNat = items.length ∧
    List.Forall₂ (fun a part => P part a) items parts ∧ data = ofUInt16 count ++ parts.flatten ++ rest

theorem Bytes.Reader.of_eq_ok {α : Type} {read : Reader α} {data : List UInt8} {a : α} :
    read.of data = .ok a ↔ ∃ c, read (.start data) = .ok (a, c) := by
  unfold Reader.of
  cases read (.start data) with
  | error fault => simp [Except.map]
  | ok result => simp [Except.map, Prod.ext_iff]

/-- A table is read as the items that its bytes list. -/
theorem Bytes.Reader.of_table_iff {α : Type} {P : List UInt8 → α → Prop} {read : Reader α}
    (htakes : read.Takes P) (hreads : ∀ part a, P part a → read.Reads part a) {data : List UInt8}
    {items : List α} : (Reader.table read).of data = .ok items ↔ Lists P data items := by
  constructor
  · intro h
    obtain ⟨c, hread⟩ := of_eq_ok.mp h
    have htable : (Reader.table read).Takes fun taken items => ∃ (count : UInt16) (parts : List (List UInt8)),
        count.toNat = items.length ∧ List.Forall₂ (fun a part => P part a) items parts ∧
          taken = ofUInt16 count ++ parts.flatten := by
      refine takes_u16.bind fun taken count hcount => (takes_times htakes count.toNat).imp ?_
      rintro taken' items ⟨hlength, parts, hparts, rfl⟩
      exact ⟨count, parts, hlength.symm, hparts, by rw [hcount]⟩
    obtain ⟨_, hrest, _, count, parts, hcount, hparts, rfl⟩ := htable _ _ _ hread
    exact ⟨count, parts, c.rest, hcount, hparts, hrest⟩
  · rintro ⟨count, parts, rest, hcount, hparts, rfl⟩
    have htable : (Reader.table read).Reads (ofUInt16 count ++ parts.flatten) items := by
      refine (reads_u16 count).bind ?_
      rw [hcount]
      exact reads_times (hparts.imp fun a part => hreads part a)
    exact of_eq_ok.mpr ⟨_, htable 0 rest⟩

namespace Code

/-- The bytes of an entry of a table of lines. -/
def LineAt (bytes : List UInt8) (e : Nat × UInt16) : Prop :=
  ∃ start : UInt16, e.1 = start.toNat ∧ bytes = ofUInt16 start ++ ofUInt16 e.2

/-- The bytes of an entry of a table of local variables. -/
def RangeAt (isTypeEntry : Bool) (bytes : List UInt8) (v : LocalRange) : Prop :=
  ∃ start length : UInt16, v.start = start.toNat ∧ v.stop = start.toNat + length.toNat ∧
    v.isTypeEntry = isTypeEntry ∧ bytes = ofUInt16 start ++ (ofUInt16 length ++
      (ofUInt16 v.nameIndex ++ (ofUInt16 v.descriptorIndex ++ ofUInt16 v.index)))

theorem takes_readLine : readLine.Takes LineAt :=
  takes_u16.bind fun _ start hstart => takes_u16.bind_pure fun _ _ hline =>
    ⟨start, rfl, by rw [hstart, hline]⟩

theorem LineAt.reads {bytes : List UInt8} {e : Nat × UInt16} (h : LineAt bytes e) :
    readLine.Reads bytes e := by
  obtain ⟨start, hstart, rfl⟩ := h
  obtain ⟨_, line⟩ := e
  obtain rfl := hstart
  exact (reads_u16 start).bind ((reads_u16 line).bind_pure fun line => (start.toNat, line))

theorem takes_readLocal (isTypeEntry : Bool) : (readLocal isTypeEntry).Takes (RangeAt isTypeEntry) :=
  takes_u16.bind fun _ start hstart => takes_u16.bind fun _ length hlength =>
    takes_u16.bind fun _ _ hname => takes_u16.bind fun _ _ hdescriptor =>
      takes_u16.bind_pure fun _ _ hindex =>
        ⟨start, length, rfl, rfl, rfl, by rw [hstart, hlength, hname, hdescriptor, hindex]⟩

theorem RangeAt.reads {isTypeEntry : Bool} {bytes : List UInt8} {v : LocalRange}
    (h : RangeAt isTypeEntry bytes v) : (readLocal isTypeEntry).Reads bytes v := by
  obtain ⟨start, length, hstart, hstop, hkind, rfl⟩ := h
  obtain ⟨_, _, name, descriptor, index, _⟩ := v
  obtain rfl := hstart
  obtain rfl := hstop
  obtain rfl := hkind
  exact (reads_u16 _).bind <| (reads_u16 _).bind <| (reads_u16 _).bind <| (reads_u16 _).bind <|
    (reads_u16 index).bind_pure fun index => LocalRange.mk start.toNat (start.toNat + length.toNat) name
      descriptor index _

/-- What an attribute tells of lines and local variables. -/
inductive Records (pool : ConstantPool) (a : Attribute) : Tables → Prop
  | lines {lines : List (Nat × UInt16)} : pool.utf8 a.nameIndex = .ok lineTable →
      Lists LineAt a.info lines → Records pool a ⟨lines, []⟩
  | locals {locals : List LocalRange} (isTypeEntry : Bool) :
      pool.utf8 a.nameIndex = .ok (if isTypeEntry then localTypeTable else localTable) →
        Lists (RangeAt isTypeEntry) a.info locals → Records pool a ⟨[], locals⟩
  | other {name : String} : pool.utf8 a.nameIndex = .ok name → name ∉ tableNames → Records pool a ⟨[], []⟩

/-- What attributes tell is told one behind the other. -/
def Records.All (pool : ConstantPool) (attributes : List Attribute) (tables : Tables) : Prop :=
  ∃ parts, List.Forall₂ (Records pool) attributes parts ∧
    tables = ⟨parts.flatMap (·.lines), parts.flatMap (·.locals)⟩

variable {pool : ConstantPool}

theorem Tables.add_iff {a : Attribute} {tables tables' : Tables} :
    Tables.add pool tables a = .ok tables' ↔ ∃ part, Records pool a part ∧
      tables' = ⟨tables.lines ++ part.lines, tables.locals ++ part.locals⟩ := by
  have hlines := @of_table_iff _ _ _ takes_readLine (fun _ _ => LineAt.reads) a.info
  have hlocals := fun isTypeEntry =>
    @of_table_iff _ _ _ (takes_readLocal isTypeEntry) (fun _ _ => RangeAt.reads) a.info
  constructor
  · intro h
    obtain ⟨name, hname, h⟩ := bind_eq_ok.mp h
    split_ifs at h with hline hlocal htype
    · obtain ⟨lines, hread, h⟩ := bind_eq_ok.mp h
      cases h
      exact ⟨⟨lines, []⟩, .lines (hline ▸ hname) (hlines.mp hread), by rw [List.append_nil]⟩
    · obtain ⟨locals, hread, h⟩ := bind_eq_ok.mp h
      cases h
      exact ⟨⟨[], locals⟩, .locals false (hlocal ▸ hname) ((hlocals false).mp hread), by rw [List.append_nil]⟩
    · obtain ⟨locals, hread, h⟩ := bind_eq_ok.mp h
      cases h
      exact ⟨⟨[], locals⟩, .locals true (htype ▸ hname) ((hlocals true).mp hread), by rw [List.append_nil]⟩
    · cases h
      refine ⟨⟨[], []⟩, .other hname ?_, by rw [List.append_nil, List.append_nil]⟩
      simp only [tableNames, List.mem_cons, List.not_mem_nil, or_false, not_or]
      exact ⟨hline, hlocal, htype⟩
  · have hsingle : ∀ part : Tables, Tells pool [a] part.lines part.locals →
        Tables.add pool tables a = .ok ⟨tables.lines ++ part.lines, tables.locals ++ part.locals⟩ := by
      intro part htells
      have hfold := htells tables
      rw [List.foldlM_cons] at hfold
      obtain ⟨_, hadd, hlast⟩ := bind_eq_ok.mp hfold
      cases hlast
      exact hadd
    rintro ⟨part, hrecords, rfl⟩
    refine hsingle part ?_
    cases hrecords with
    | lines hname hread => exact tells_lines hname (hlines.mpr hread)
    | locals isTypeEntry hname hread => exact tells_locals hname ((hlocals isTypeEntry).mpr hread)
    | other hname hother =>
      exact tells_others fun b hb => List.mem_singleton.mp hb ▸ ⟨_, hname, hother⟩

/-- The tables that are read are what the attributes tell. -/
theorem Tables.ofAttributes_iff {attributes : List Attribute} {tables : Tables} :
    Tables.ofAttributes pool attributes = .ok tables ↔ Records.All pool attributes tables := by
  have hfold : ∀ done : Tables, attributes.foldlM (Tables.add pool) done = .ok tables ↔
      ∃ parts, List.Forall₂ (Records pool) attributes parts ∧
        tables = ⟨done.lines ++ parts.flatMap (·.lines), done.locals ++ parts.flatMap (·.locals)⟩ := by
    induction attributes with
    | nil =>
      intro done
      constructor
      · intro h
        cases h
        exact ⟨[], .nil, by simp⟩
      · rintro ⟨parts, hparts, rfl⟩
        cases hparts
        simp [pure, Except.pure]
    | cons a rest ih =>
      intro done
      rw [List.foldlM_cons, bind_eq_ok]
      constructor
      · rintro ⟨next, hnext, h⟩
        obtain ⟨part, hpart, rfl⟩ := Tables.add_iff.mp hnext
        obtain ⟨parts, hparts, rfl⟩ := (ih _).mp h
        exact ⟨part :: parts, .cons hpart hparts, by simp⟩
      · rintro ⟨_, hall, rfl⟩
        obtain ⟨part, parts, hpart, hparts, rfl⟩ := List.forall₂_cons_left_iff.mp hall
        exact ⟨_, Tables.add_iff.mpr ⟨part, hpart, rfl⟩, (ih _).mpr ⟨parts, hparts, by simp⟩⟩
  exact (hfold ⟨[], []⟩).trans (by simp [Records.All])

/-! ## Code at a base -/

/-- The instruction, moved on by a base. -/
def Located.shift (base : Nat) (l : Located) : Located :=
  ⟨base + l.offset, l.insn, l.targets.map (base + ·)⟩

/-- An instruction is spelt the same at a base that keeps the alignment. -/
theorem Spells.shift {base offset : Nat} {spelling : List UInt8} {l : Located} (hbase : base % 4 = 0)
    (h : Spells pool offset spelling l) : Spells pool (base + offset) spelling (l.shift base) := by
  have hdistance : ∀ target : Nat, ((base + target : Nat) : Int) - (base + offset : Nat) =
      (target : Int) - offset := by
    omega
  have hreach : ∀ {target : Nat}, InReach offset target → InReach (base + offset) (base + target) := by
    intro target h
    rw [InReach, hdistance]
    exact h
  have hreaches : ∀ {targets : List Nat}, (∀ target ∈ targets, InReach offset target) →
      ∀ target ∈ targets.map (base + ·), InReach (base + offset) target := by
    intro targets h target htarget
    obtain ⟨t, ht, rfl⟩ := List.mem_map.mp htarget
    exact hreach (h t ht)
  have hpadding : padding (base + offset) = padding offset := by
    unfold padding
    omega
  cases h with
  | op h => exact .op h
  | bipush value => exact .bipush value
  | sipush value => exact .sipush value
  | ldc h => exact .ldc h
  | ldcLong hcode h => exact .ldcLong hcode h
  | var h v => exact .var h v
  | shortLoad h => exact .shortLoad h
  | shortStore h => exact .shortStore h
  | wideVar h v => exact .wideVar h v
  | iinc v delta => exact .iinc v delta
  | wideIinc v delta => exact .wideIinc v delta
  | @jump code h target hshort =>
    rw [← hdistance target] at hshort ⊢
    exact .jump h hshort
  | @gotoW target h =>
    rw [← hdistance target]
    exact .gotoW (hreach h)
  | @jsrW target h =>
    rw [← hdistance target]
    exact .jsrW (hreach h)
  | @tableSwitch filler default low targets hfiller hne hhigh hall =>
    have hspells := @Spells.tableSwitch pool (base + offset) filler (base + default) low
      (targets.map (base + ·)) (by rw [hpadding, hfiller]) (by simpa using hne)
      (by rw [List.length_map]; exact hhigh) (hreaches hall)
    simp only [List.map_map, Function.comp_def, hdistance, List.length_map] at hspells
    exact hspells
  | @lookupSwitch filler default pairs hfiller hcount hall =>
    have htargets : (pairs.map fun pair => (pair.1, base + pair.2)).map (·.2) =
        (pairs.map (·.2)).map (base + ·) := by
      rw [List.map_map, List.map_map]
      rfl
    have hspells := @Spells.lookupSwitch pool (base + offset) filler (base + default)
      (pairs.map fun pair => (pair.1, base + pair.2)) (by rw [hpadding, hfiller])
      (by rw [List.length_map]; exact hcount) (by rw [htargets]; exact hreaches hall)
    rw [htargets] at hspells
    simp only [List.map_map, Function.comp_def, hdistance, List.length_map] at hspells
    rw [Located.shift, List.map_cons, List.map_map]
    exact hspells
  | field hcode h => exact .field hcode h
  | invoke hcode hother h => exact .invoke hcode hother h
  | invokeInterface count reserved h => exact .invokeInterface count reserved h
  | invokeDynamic reserved h => exact .invokeDynamic reserved h
  | type hcode h => exact .type hcode h
  | newArray code => exact .newArray code
  | multiNewArray dims h => exact .multiNewArray dims h

theorem Row.shift {base offset : Nat} {ls : List Located} {bytes : List UInt8} (hbase : base % 4 = 0)
    (h : Row (Spells pool) offset ls bytes) :
    Row (Spells pool) (base + offset) (ls.map (·.shift base)) bytes := by
  induction h with
  | nil offset => exact .nil _
  | cons first _ ih =>
    rw [← Nat.add_assoc] at ih
    exact .cons (first.shift hbase) ih

/-- Bytes spell one row of instructions at most. -/
theorem Row.unique {offset : Nat} {ls ls' : List Located} {bytes : List UInt8}
    (h : Row (Spells pool) offset ls bytes) (h' : Row (Spells pool) offset ls' bytes) : ls = ls' := by
  have hread := h.readAll bytes.length (Nat.le_refl _) []
  rw [h'.readAll bytes.length (Nat.le_refl _) []] at hread
  simpa using hread.symm

/-! ## Displacements in bytes -/

/-- The displacements that an instruction is spelt with lead to the labels of its targets. -/
theorem Spells.branches {offset : Nat} {spelling : List UInt8} {l : Located}
    (h : Spells pool offset spelling l) (labels : Labels) (lands : Int → NodeId → Prop)
    (hlands : ∀ t ∈ l.targets, lands ((t : Int) - offset) (labels.find t)) :
    ∃ isLong, Insn.Branches lands offset isLong (l.link labels) spelling := by
  have hlong : ∀ {t}, InReach offset t → lands ((t : Int) - offset) (labels.find t) →
      lands (displacement offset t).toInt (labels.find t) := by
    intro t hreach h
    rwa [displacement, Int32.toInt_ofInt_of_le hreach.1 hreach.2]
  cases h with
  | @jump code _ target hshort =>
    refine ⟨false, .short ?_⟩
    rw [Layout.isShort, Bool.and_eq_true, decide_eq_true_iff, decide_eq_true_iff] at hshort
    rw [Int16.toInt_ofInt_of_le hshort.1 (by omega)]
    exact hlands target (List.mem_singleton_self target)
  | gotoW hreach => exact ⟨true, .gotoLong (hlong hreach (hlands _ (List.mem_singleton_self _)))⟩
  | jsrW hreach => exact ⟨true, .jsrLong (hlong hreach (hlands _ (List.mem_singleton_self _)))⟩
  | @tableSwitch filler default low targets hfiller _ _ hreach =>
    have hall : ∀ t ∈ default :: targets, lands (displacement offset t).toInt (labels.find t) :=
      fun t ht => hlong (hreach t ht) (hlands t ht)
    have hbranches := @Insn.Branches.tableSwitch lands offset false low _ (labels.find default)
      (targets.map labels.find) filler (targets.map (displacement offset)) (hfiller ▸ padding_lt offset)
      (hfiller ▸ padding_aligns offset) (hall default List.mem_cons_self)
      (List.forall₂_map_left_iff.mpr (List.forall₂_map_right_iff.mpr (List.forall₂_same.mpr fun t ht =>
        hall t (List.mem_cons_of_mem _ ht))))
    rw [List.length_map, List.map_map] at hbranches
    exact ⟨false, hbranches⟩
  | @lookupSwitch filler default pairs hfiller hcount hreach =>
    have hall : ∀ t ∈ default :: pairs.map (·.2), lands (displacement offset t).toInt (labels.find t) :=
      fun t ht => hlong (hreach t ht) (hlands t ht)
    have hnumber : pairs.length.toUInt32.toNat = (pairs.map fun pair => labels.find pair.2).length := by
      rw [List.length_map, Nat.toUInt32, UInt32.toNat_ofNat']
      exact Nat.mod_eq_of_lt (by omega)
    have hbranches := @Insn.Branches.lookupSwitch lands offset false _ (labels.find default)
      (pairs.map (·.1)) (pairs.map fun pair => labels.find pair.2) filler
      (pairs.map fun pair => displacement offset pair.2) _ (hfiller ▸ padding_lt offset)
      (hfiller ▸ padding_aligns offset) (hall default List.mem_cons_self) hnumber
      (List.forall₂_map_left_iff.mpr (List.forall₂_map_right_iff.mpr (List.forall₂_same.mpr fun pair hpair =>
        hall pair.2 (List.mem_cons_of_mem _ (List.mem_map_of_mem hpair)))))
    rw [List.zip_map', List.map_map] at hbranches
    rw [Located.link, List.map_cons, List.map_map]
    exact ⟨false, hbranches⟩
  | _ => exact ⟨false, .other rfl⟩

end Code

/-! ## Labels -/

namespace InsnList

variable {list : InsnList} {p q : Nat}

theorem ahead_eq_of_skips (hle : p ≤ q) (hq : q ≤ list.size)
    (hskips : ∀ k, p ≤ k → k < q → (list.insnAt k).isReal = false) : list.ahead q = list.ahead p := by
  induction q, hle using Nat.le_induction with
  | base => rfl
  | succ q hle ih =>
    rw [ahead_succ hq, hskips q hle (Nat.lt_succ_self q)]
    exact ih (Nat.le_of_succ_le hq) fun k hk hkq => hskips k hk (Nat.lt_succ_of_lt hkq)

/-- The position behind the front of a list. -/
theorem at_of_split {front back : List Insn} {insn : Insn} (h : list.insns.toList = front ++ insn :: back) :
    front.length < list.size ∧ list.insnAt front.length = insn ∧
      list.insns.toList.take front.length = front ∧
        list.ahead front.length = (front.filter Insn.isReal).length := by
  have hsize : front.length < list.size := by
    rw [← length_insns, h, List.length_append, List.length_cons]
    omega
  have hinsn := getElem?_insns hsize
  have htake : list.insns.toList.take front.length = front := by
    rw [h, List.take_left]
  rw [h, List.getElem?_append_right (Nat.le_refl _), Nat.sub_self] at hinsn
  refine ⟨hsize, (Option.some.inj hinsn).symm, htake, ?_⟩
  rw [ahead, htake, List.countP_eq_length_filter]

/-- From a position on there is a first instruction, or only labels and lines. -/
theorem exists_isNext_or (list : InsnList) (p : Nat) :
    (∃ q, list.IsNext p q) ∨ ∀ q, p ≤ q → q < list.size → (list.insnAt q).isReal = false := by
  by_cases h : ∃ q, p ≤ q ∧ q < list.size ∧ (list.insnAt q).isReal = true
  · obtain ⟨hle, hlt, hreal⟩ := Nat.find_spec h
    refine .inl ⟨Nat.find h, hle, hlt, hreal, fun k hk hkq => ?_⟩
    have hnone := Nat.find_min h hkq
    rw [not_and, not_and, Bool.not_eq_true] at hnone
    exact hnone hk (by omega)
  · refine .inr fun q hq hlt => ?_
    rw [not_exists] at h
    have hnone := h q
    rw [not_and, not_and, Bool.not_eq_true] at hnone
    exact hnone hq hlt

end InsnList

namespace Code

/-- A label that stands once, and behind it, labels and lines apart, the instruction at the offset or, at the
offset of the end, nothing. -/
structure IsLabelOf (insns : List Located) (length : Nat) (list : InsnList) (offset : Nat) (id : NodeId) :
    Prop where
  label : list.get id = .label
  once : list.order.toList.count id = 1
  behind : ∃ p < list.size, list.idAt p = id ∧
    ((∃ q l, list.IsNext p q ∧ insns[list.ahead q]? = some l ∧ l.offset = offset) ∨
      (offset = length ∧ ∀ q, p ≤ q → q < list.size → (list.insnAt q).isReal = false))

section

variable {pool : ConstantPool} {length : Nat} {insns : List Located} {references : List Nat}
  {table : List (Nat × UInt16)}

/-- Offsets that are referred to have labels. -/
theorem InOrder.isLabelOf (h : InOrder length insns) {offset : Nat} (hmem : offset ∈ references)
    (hboundary : IsBoundary length insns offset) :
    IsLabelOf insns length (listOf length insns references table) offset
      ((labelsOf length references).find offset) := by
  obtain ⟨p, hp, hfind, hahead⟩ := @InOrder.exists_label length insns references table h offset hmem hboundary
  have hproper := (@InOrder.listOf_spec length insns references table h).1
  have hreals := @InOrder.reals_listOf length insns references table h
  have hoffset := h.offsetAt_numberAt hboundary
  rw [← hahead] at hoffset
  have hlabel := @InOrder.get_label length insns references table h offset _ hfind
  rw [Labels.find, hfind, Option.getD_some]
  generalize listOf length insns references table = list at *
  refine ⟨hlabel, List.count_eq_one_of_mem hproper.distinct ?_, p, hp, rfl, ?_⟩
  · exact Array.mem_toList_iff.mpr (InsnList.mem_order.mpr ⟨p, hp, rfl⟩)
  rcases list.exists_isNext_or p with ⟨q, hnext⟩ | hnone
  · have hq := list.getElem?_reals hnext.lt hnext.isReal
    rw [hreals, List.getElem?_map] at hq
    obtain ⟨l, hl, _⟩ := Option.map_eq_some_iff.mp hq
    refine .inl ⟨q, l, hnext, hl, ?_⟩
    rwa [← InsnList.ahead_eq_of_skips hnext.le (Nat.le_of_lt hnext.lt) hnext.skips, offsetAt, hl,
      Option.map_some, Option.getD_some] at hoffset
  · refine .inr ⟨?_, hnone⟩
    rw [← InsnList.ahead_eq_of_skips (Nat.le_of_lt hp) (Nat.le_refl _) hnone, InsnList.ahead_size, hreals,
      List.length_map, offsetAt, List.getElem?_eq_none (Nat.le_refl _)] at hoffset
    exact hoffset.symm

/-- The place of an instruction, behind the lines of its offset. -/
theorem InOrder.exists_place (h : InOrder length insns) {i : Nat} (hi : i < insns.length) :
    ∃ p < (listOf length insns references table).size,
      (listOf length insns references table).insnAt p = insns[i].link (labelsOf length references) ∧
      (listOf length insns references table).ahead p = i ∧
      ∃ before, (listOf length insns references table).insns.toList.take p =
        before ++ (table.filter (·.1 = insns[i].offset)).map fun e => .line e.2 := by
  have hoffset := Nat.lt_succ_of_lt (h.inside insns[i] (List.getElem_mem hi))
  have hmarks : ((table.filter (·.1 = insns[i].offset)).map (Insn.line ∘ (·.2))).filter Insn.isReal = [] := by
    simp [List.filter_map, Function.comp_def, Insn.isReal]
  have hfirst : (((insns.take i).flatMap (block (labelsOf length references)
      (linesByOffset (length + 1) table))).filter Insn.isReal).length = i := by
    rw [filter_blocks fun l hl => h.real l (List.mem_of_mem_take hl), List.length_map,
      List.length_take_of_le (Nat.le_of_lt hi)]
  have hsplit : insns.flatMap (block (labelsOf length references) (linesByOffset (length + 1) table)) =
      (insns.take i).flatMap (block (labelsOf length references) (linesByOffset (length + 1) table)) ++
        (block (labelsOf length references) (linesByOffset (length + 1) table) insns[i] ++
          (insns.drop (i + 1)).flatMap
            (block (labelsOf length references) (linesByOffset (length + 1) table))) := by
    rw [← List.flatMap_cons, List.getElem_cons_drop, ← List.flatMap_append, List.take_append_drop]
  have hinsns := (@InOrder.listOf_spec length insns references table h).2.1
  rw [hsplit, block, getD_linesByOffset table hoffset, List.map_map] at hinsns
  simp only [List.append_assoc, List.singleton_append] at hinsns
  rw [← List.append_assoc, ← List.append_assoc] at hinsns
  obtain ⟨hp, hinsn, htake, hahead⟩ := InsnList.at_of_split hinsns
  refine ⟨_, hp, hinsn, ?_, _, htake⟩
  rw [hahead, List.filter_append, List.filter_append, filter_labelAt, hmarks, List.append_nil,
    List.append_nil, hfirst]

end

/-! ## Decoded bodies -/

/-- The instruction with a number has a place in the list, behind the lines of its offset, and the
displacements among its bytes lead to the labels of the offsets they add up to. -/
structure StandsAt (pool : ConstantPool) (code : List UInt8) (insns : List Located) (tables : Tables)
    (list : InsnList) (i : Nat) (l : Located) (p : Nat) : Prop where
  inside : p < list.size
  isReal : (list.insnAt p).isReal = true
  number : list.ahead p = i
  insn : (list.insnAt p).bare = l.insn.bare
  lines : ∃ before, list.insns.toList.take p =
    before ++ (tables.lines.filter (·.1 = l.offset)).map fun e => .line e.2
  spelt : ∃ front spelling back isLong, code = front ++ (spelling ++ back) ∧ front.length = l.offset ∧
    Spells pool l.offset spelling l ∧ Insn.Branches (fun d id => ∃ target : Nat, (l.offset : Int) + d = target ∧
      IsLabelOf insns code.length list target id) l.offset isLong (list.insnAt p) spelling

/-- A body holds the instructions of its code, and labels for the offsets of its tables. -/
structure Resolves (pool : ConstantPool) (code : CodeAttribute) (insns : List Located) (tables : Tables)
    (body : Body) : Prop where
  count : body.insns.reals.length = insns.length
  placed : ∀ i (hi : i < insns.length), ∃ p, StandsAt pool code.code insns tables body.insns i insns[i] p
  regions : List.Forall₂ (fun h r => IsLabelOf insns code.code.length body.insns h.start.toNat r.start ∧
    IsLabelOf insns code.code.length body.insns h.stop.toNat r.stop ∧
    IsLabelOf insns code.code.length body.insns h.handler.toNat r.handler ∧
    Layout.Catches pool h.catchType r.catchType) code.handlers body.regions
  locals : List.Forall₂ (fun v e => IsLabelOf insns code.code.length body.insns v.start e.start ∧
    IsLabelOf insns code.code.length body.insns v.stop e.stop ∧ e.nameIndex = v.nameIndex ∧
    e.descriptorIndex = v.descriptorIndex ∧ e.index = v.index ∧ e.isTypeEntry = v.isTypeEntry)
    tables.locals body.locals

/-- The offsets that code refers to, with its instructions located from a base on. -/
inductive Refers (pool : ConstantPool) (code : CodeAttribute) (base : Nat) (insns : List Located) : Int → Prop
  | target {l : Located} {t : Nat} : l ∈ insns → t ∈ l.targets → Refers pool code base insns ((t : Int) - base)
  | region {h : HandlerRange} {o : UInt16} : h ∈ code.handlers → o ∈ [h.start, h.stop, h.handler] →
      Refers pool code base insns o.toNat
  | line {a : Attribute} {tables : Tables} {e : Nat × UInt16} : a ∈ code.attributes → Records pool a tables →
      e ∈ tables.lines → Refers pool code base insns e.1
  | range {a : Attribute} {tables : Tables} {v : LocalRange} {o : Nat} : a ∈ code.attributes →
      Records pool a tables → v ∈ tables.locals → o ∈ [v.start, v.stop] → Refers pool code base insns o

theorem Records.unique {a : Attribute} {part part' : Tables} (h : Records pool a part)
    (h' : Records pool a part') : part = part' := by
  have hadd : Tables.add pool ⟨[], []⟩ a = .ok part := Tables.add_iff.mpr ⟨part, h, rfl⟩
  rw [Tables.add_iff.mpr ⟨part', h', rfl⟩] at hadd
  exact (Except.ok.inj hadd).symm

section

variable {code : CodeAttribute} {insns : List Located} {tables : Tables}

/-- Part of what all attributes tell. -/
theorem Records.All.mem {a : Attribute} {part : Tables} (h : Records.All pool code.attributes tables)
    (ha : a ∈ code.attributes) (hpart : Records pool a part) :
    (∀ e ∈ part.lines, e ∈ tables.lines) ∧ ∀ v ∈ part.locals, v ∈ tables.locals := by
  obtain ⟨parts, hparts, rfl⟩ := h
  obtain ⟨part', hmem, hpart'⟩ := exists_of_forall₂ hparts ha
  obtain rfl := hpart.unique hpart'
  exact ⟨fun e he => List.mem_flatMap.mpr ⟨part, hmem, he⟩,
    fun v hv => List.mem_flatMap.mpr ⟨part, hmem, hv⟩⟩

/-- What stands at the place of an instruction. -/
theorem StandsAt.of_spells {labels : Labels} {bytes front spelling back : List UInt8} {list : InsnList} {l : Located}
    {i p : Nat} (hspells : Spells pool l.offset spelling l) (hcode : bytes = front ++ (spelling ++ back))
    (hfront : front.length = l.offset)
    (hlabels : ∀ t ∈ l.targets, IsLabelOf insns bytes.length list t (labels.find t)) (hp : p < list.size)
    (hinsn : list.insnAt p = l.link labels) (hahead : list.ahead p = i)
    (hlines : ∃ before, list.insns.toList.take p =
      before ++ (tables.lines.filter (·.1 = l.offset)).map fun e => .line e.2) :
    StandsAt pool bytes insns tables list i l p := by
  obtain ⟨isLong, hbranches⟩ := hspells.branches labels
    (fun d id => ∃ target : Nat, (l.offset : Int) + d = target ∧ IsLabelOf insns bytes.length list target id)
    (fun t ht => ⟨t, by omega, hlabels t ht⟩)
  rw [← hinsn] at hbranches
  refine ⟨hp, ?_, hahead, ?_, hlines, front, spelling, back, isLong, hcode, hfront, hspells, hbranches⟩
  · rw [hinsn, isReal_link]
    exact hspells.isReal
  · rw [hinsn, bare_link]

/-- A decoded body holds the instructions of its code, with labels for all that refers to offsets. -/
theorem resolves_of_decode {body : Body} (h : Body.decode pool code = .ok body) :
    ∃ insns tables, Row (Spells pool) 0 insns code.code ∧ Records.All pool code.attributes tables ∧
      (∀ o ∈ referenced insns code.handlers tables, IsBoundary code.code.length insns o) ∧
        Resolves pool code insns tables body := by
  obtain ⟨insns, tables, regions, hlocated, htables, hboundaries, hregions, hbody⟩ := Body.decode_eq_ok.mp h
  have hrow := located_iff.mp hlocated
  have horder := inOrder_of_located hlocated
  have hinsns : body.insns = listOf code.code.length insns (referenced insns code.handlers tables) tables.lines :=
    congrArg Body.insns hbody
  have hlocals := congrArg Body.locals hbody
  obtain rfl := congrArg Body.regions hbody
  have hcount := @InOrder.reals_listOf _ _ (referenced insns code.handlers tables) tables.lines horder
  have hplace : ∀ i (hi : i < insns.length), _ := fun i hi =>
    @InOrder.exists_place _ _ (referenced insns code.handlers tables) tables.lines horder i hi
  have hlabel : ∀ o ∈ referenced insns code.handlers tables, IsLabelOf insns code.code.length _ o _ :=
    fun o ho => @InOrder.isLabelOf _ _ _ tables.lines horder o ho (hboundaries o ho)
  rw [← hinsns] at hcount
  simp only [← hinsns] at hplace hlabel
  generalize labelsOf code.code.length (referenced insns code.handlers tables) = labels at *
  refine ⟨insns, tables, hrow, Tables.ofAttributes_iff.mp htables, hboundaries, ?_, fun i hi => ?_, ?_, ?_⟩
  · rw [hcount, List.length_map]
  · obtain ⟨p, hp, hinsn, hahead, hlines⟩ := hplace i hi
    obtain ⟨front, spelling, back, hcode, hspells, _⟩ := hrow.getElem (fun _ _ _ h => h.offset_eq) hi
    have hoffset := hspells.offset_eq
    rw [← hoffset] at hspells
    exact ⟨p, .of_spells hspells hcode (by omega)
      (fun t ht => hlabel t (mem_referenced_target (List.getElem_mem hi) ht)) hp hinsn hahead hlines⟩
  · have hall := (List.forall₂_and_left _ _).mpr
      ⟨fun h (hh : h ∈ code.handlers) => hh, mapM_eq_ok.mp hregions⟩
    refine hall.imp fun h r ⟨hh, hregion⟩ => ?_
    obtain ⟨hstart, hstop, hhandler, hcatches⟩ := region_eq_ok hregion
    rw [hstart, hstop, hhandler]
    have hmem : ∀ o ∈ [h.start.toNat, h.stop.toNat, h.handler.toNat], o ∈ referenced insns code.handlers tables :=
      fun o => mem_referenced_region hh
    exact ⟨hlabel _ (hmem _ (by simp)), hlabel _ (hmem _ (by simp)), hlabel _ (hmem _ (by simp)), hcatches⟩
  · rw [hlocals]
    refine List.forall₂_map_right_iff.mpr (List.forall₂_same.mpr fun v hv => ?_)
    exact ⟨hlabel v.start (mem_referenced_range hv (by simp)), hlabel v.stop (mem_referenced_range hv (by simp)),
      rfl, rfl, rfl, rfl⟩

/-- An offset that decoded code refers to is one of its instructions or that of its end. -/
theorem Refers.boundary {body : Body} {base : Nat} {o : Int} (h : Body.decode pool code = .ok body)
    (hbase : base % 4 = 0) (hrow : Row (Spells pool) base insns code.code)
    (hrefers : Refers pool code base insns o) :
    o = code.code.length ∨ ∃ l ∈ insns, (l.offset : Int) - base = o := by
  obtain ⟨insns', tables, hrow', hrecords, hboundaries, _⟩ := resolves_of_decode h
  obtain rfl := hrow.unique (hrow'.shift hbase)
  have hmem : ∃ o' ∈ referenced insns' code.handlers tables, o = (o' : Nat) := by
    cases hrefers with
    | @target l t hl ht =>
      obtain ⟨l', hl', rfl⟩ := List.mem_map.mp hl
      obtain ⟨t', ht', rfl⟩ := List.mem_map.mp ht
      exact ⟨t', mem_referenced_target hl' ht', by omega⟩
    | region hh ho => exact ⟨_, mem_referenced_region hh (List.mem_map_of_mem ho), rfl⟩
    | line ha hpart he => exact ⟨_, mem_referenced_line ((hrecords.mem ha hpart).1 _ he), rfl⟩
    | range ha hpart hv ho => exact ⟨_, mem_referenced_range ((hrecords.mem ha hpart).2 _ hv) ho, rfl⟩
  obtain ⟨o', hmem, rfl⟩ := hmem
  rcases hboundaries o' hmem with rfl | ⟨l, hl, rfl⟩
  · exact .inl rfl
  · refine .inr ⟨l.shift base, List.mem_map_of_mem hl, ?_⟩
    show ((base + l.offset : Nat) : Int) - base = l.offset
    omega

end

end Code

open Code in
/-- A body that was decoded holds the instructions of the code in order, each behind its lines, and every offset
that the code refers to has become a label ahead of the instruction there or at the end. Code that refers to
another offset, be it one ahead of its start, is not decoded. -/
theorem Body.decode_resolves (pool : ConstantPool) (code : CodeAttribute) :
    (∀ body, Body.decode pool code = .ok body → ∃ insns tables, Row (Spells pool) 0 insns code.code ∧
      Records.All pool code.attributes tables ∧ Resolves pool code insns tables body) ∧
    ∀ (base : Nat) (insns : List Located) (o : Int), base % 4 = 0 → Row (Spells pool) base insns code.code →
      Refers pool code base insns o → o ≠ code.code.length → (∀ l ∈ insns, (l.offset : Int) - base ≠ o) →
        ∃ fault, Body.decode pool code = .error fault := by
  constructor
  · intro body h
    obtain ⟨insns, tables, hrow, hrecords, _, hresolves⟩ := resolves_of_decode h
    exact ⟨insns, tables, hrow, hrecords, hresolves⟩
  · intro base insns o hbase hrow hrefers hend hnone
    cases hdecode : Body.decode pool code with
    | error fault => exact ⟨fault, rfl⟩
    | ok body =>
      rcases hrefers.boundary hdecode hbase hrow with heq | ⟨l, hl, heq⟩
      · exact absurd heq hend
      · exact absurd heq (hnone l hl)

/-! ### A switch back to the start, and a jump ahead of it -/

def switchPool : ConstantPool := ⟨#[.unusable, .utf8 "LineNumberTable", .utf8 "LocalVariableTable"]⟩

def switchCode : CodeAttribute where
  maxStack := 1
  maxLocals := 1
  code := [26, 171, 0, 0, 0, 0, 0, 19, 0, 0, 0, 1, 0, 0, 0, 7, 255, 255, 255, 255, 177]
  handlers := [⟨0, 20, 20, 0⟩]
  attributes := [⟨1, [0, 3, 0, 0, 0, 5, 0, 20, 0, 6, 0, 20, 0, 7]⟩, ⟨2, [0, 1, 0, 0, 0, 21, 0, 3, 0, 4, 0, 0]⟩]

def switchInsns : List Code.Located :=
  [⟨0, .var Opcode.iload 0, []⟩, ⟨1, .lookupSwitch .dangling [7] [], [20, 0]⟩, ⟨20, .op Opcode.returnVoid, []⟩]

theorem switchCode_decode : ∃ body, Body.decode switchPool switchCode = .ok body := by
  refine ⟨_, Body.decode_eq_ok.mpr ⟨switchInsns, ⟨[(0, 5), (20, 6), (20, 7)], [⟨0, 21, 3, 4, 0, false⟩]⟩, _,
    ?_, ?_, ?_, rfl, rfl⟩⟩
  · with_unfolding_all rfl
  · with_unfolding_all rfl
  · simp [Code.referenced, switchInsns, switchCode, Code.IsBoundary]

open Code in
theorem Body.decode_resolves_switch :
    (∃ body insns tables, Body.decode switchPool switchCode = .ok body ∧
      Row (Spells switchPool) 0 insns switchCode.code ∧ Resolves switchPool switchCode insns tables body) ∧
    ∃ fault, Body.decode .empty ⟨0, 0, [Opcode.goto, 255, 253], [], []⟩ = .error fault := by
  constructor
  · obtain ⟨body, hdecode⟩ := switchCode_decode
    obtain ⟨insns, tables, hrow, _, hresolves⟩ := (Body.decode_resolves switchPool switchCode).1 body hdecode
    exact ⟨body, insns, tables, hdecode, hrow, hresolves⟩
  · have hspells : Spells .empty 4 [Opcode.goto, 255, 253] ⟨4, .jump Opcode.goto .dangling, [1]⟩ :=
      @Spells.jump .empty 4 Opcode.goto rfl 1 rfl
    have hrow : Row (Spells .empty) 4 [⟨4, .jump Opcode.goto .dangling, [1]⟩] [Opcode.goto, 255, 253] :=
      .cons hspells (.nil _)
    exact (Body.decode_resolves .empty ⟨0, 0, [Opcode.goto, 255, 253], [], []⟩).2 4 _ _ rfl hrow
      (.target (List.mem_singleton_self _) (List.mem_singleton_self _)) (by decide) (by decide)

end DirectCall
