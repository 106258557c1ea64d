import DirectCall.Proofs.Code.RoundTrip

/-!
# Lists that stand for code

The list of a decoded body stands for the code it was read from (`Body.linked_of_decode`): its real
instructions are those of the code, and the label of an offset leads to the instruction there
(`Code.Linked`). What its instructions name in the pool is there already, so the pool stays as it is when
the list is laid out (`Layout.edit_ofList`).
-/

namespace DirectCall

open Bytes ConstantPool

namespace Code

variable {pool : ConstantPool}

/-! ## Offsets by number -/

/-- Offset of the instruction with a number; behind the last one that of the end. -/
def offsetAt (insns : List Located) (length number : Nat) : Nat :=
  (insns[number]?.map (·.offset)).getD length

theorem offsetAt_getElem {insns : List Located} {length i : Nat} (hi : i < insns.length) :
    offsetAt insns length i = insns[i].offset := by
  rw [offsetAt, List.getElem?_eq_getElem hi]
  rfl

theorem InOrder.offsetAt_numberAt {length : Nat} {insns : List Located} (h : InOrder length insns)
    {offset : Nat} (hboundary : IsBoundary length insns offset) :
    offsetAt insns length (numberAt insns offset) = offset := by
  rcases hboundary with rfl | ⟨l, hl, rfl⟩
  · rw [h.numberAt_length, offsetAt, List.getElem?_eq_none (Nat.le_refl _)]
    rfl
  · obtain ⟨i, hi, rfl⟩ := List.getElem_of_mem hl
    rw [h.numberAt_getElem hi, offsetAt_getElem hi]

section

variable {P : Nat → List UInt8 → Located → Prop} {ls : List Located} {bytes : List UInt8}

theorem Row.offsetAt_zero (hoffset : ∀ offset spelling l, P offset spelling l → l.offset = offset)
    {start : Nat} (h : Row P start ls bytes) : offsetAt ls (start + bytes.length) 0 = start := by
  cases h with
  | nil => rfl
  | cons first _ => exact hoffset _ _ _ first

/-- The bytes of one instruction among those of the row. -/
theorem Row.getElem (hoffset : ∀ offset spelling l, P offset spelling l → l.offset = offset) {start : Nat}
    (h : Row P start ls bytes) {i : Nat} (hi : i < ls.length) :
    ∃ front spelling back, bytes = front ++ (spelling ++ back) ∧ P (start + front.length) spelling ls[i] ∧
      offsetAt ls (start + bytes.length) (i + 1) = start + front.length + spelling.length := by
  induction h generalizing i with
  | nil => exact absurd hi (Nat.not_lt_zero _)
  | @cons start l ls spelling rest first others ih =>
    have hend : start + (spelling ++ rest).length = start + spelling.length + rest.length := by
      rw [List.length_append, Nat.add_assoc]
    have hnext : ∀ n, offsetAt (l :: ls) (start + (spelling ++ rest).length) (n + 1) =
        offsetAt ls (start + spelling.length + rest.length) n := by
      intro n
      rw [hend]
      rfl
    cases i with
    | zero =>
      refine ⟨[], spelling, rest, rfl, first, ?_⟩
      rw [hnext, others.offsetAt_zero hoffset]
      rfl
    | succ i =>
      obtain ⟨front, spelling', back, rfl, hspelling', hend'⟩ := ih (Nat.lt_of_succ_lt_succ hi)
      refine ⟨spelling ++ front, spelling', back, by simp, ?_, ?_⟩
      · rw [List.length_append, ← Nat.add_assoc]
        exact hspelling'
      · rw [hnext, hend', List.length_append]
        omega

end

/-! ## Lists that stand for code -/

/-- The list holds the instructions with labels for their targets, and the labels lead to the offsets that
are referred to. -/
structure Linked (insns : List Located) (length : Nat) (references : List Nat) (labels : Labels)
    (list : InsnList) : Prop where
  reals : list.reals = insns.map (·.link labels)
  targets : ∀ l ∈ insns, ∀ t ∈ l.targets, t ∈ references
  leads : ∀ o ∈ references, ∃ number, list.leadsTo? (labels.find o) = some number ∧
    offsetAt insns length number = o

section

variable {insns : List Located} {length : Nat} {references : List Nat} {labels : Labels} {list : InsnList}

theorem Linked.getElem (h : Linked insns length references labels list) {p : Nat} (hp : p < list.size)
    (hreal : (list.insnAt p).isReal = true) :
    ∃ hi : list.ahead p < insns.length, list.insnAt p = insns[list.ahead p].link labels := by
  have hfound := list.getElem?_reals hp hreal
  rw [h.reals, List.getElem?_map] at hfound
  obtain ⟨l, hl, hlink⟩ := Option.map_eq_some_iff.mp hfound
  obtain ⟨hi, rfl⟩ := List.getElem?_eq_some_iff.mp hl
  exact ⟨hi, hlink.symm⟩

/-- Every instruction of the list fits, and its index leads to what it carries. -/
theorem Linked.fits_names (h : Linked insns length references labels list) {code : List UInt8}
    (hlocated : located pool code = .ok insns) {p : Nat} (hp : p < list.size) :
    (list.insnAt p).Fits ∧ (list.insnAt p).Names pool (list.insnAt p).storedIndex := by
  cases hreal : (list.insnAt p).isReal with
  | true =>
    obtain ⟨hi, hinsn⟩ := h.getElem hp hreal
    obtain ⟨_, _, hspells⟩ := (located_iff.mp hlocated).exists_of_mem (List.getElem_mem hi)
    rw [hinsn]
    exact hspells.fits_names labels
  | false =>
    cases hinsn : list.insnAt p with
    | label => exact ⟨trivial, trivial⟩
    | line number => exact ⟨trivial, trivial⟩
    | _ =>
      rw [hinsn] at hreal
      cases hreal

theorem Linked.ahead_size (h : Linked insns length references labels list) :
    offsetAt insns length (list.ahead list.size) = length := by
  rw [InsnList.ahead_size, h.reals, List.length_map, offsetAt, List.getElem?_eq_none (Nat.le_refl _)]
  rfl

end

end Code

/-- Decoding gives a list that stands for the code, with its regions and local variable entries over labels
of offsets that are referred to. -/
theorem Body.linked_of_decode {pool : ConstantPool} {code : CodeAttribute} {body : Body}
    {insns : List Code.Located} (h : Body.decode pool code = .ok body)
    (hlocated : Code.located pool code.code = .ok insns) :
    ∃ tables labels,
      Code.Linked insns code.code.length (Code.referenced insns code.handlers tables) labels body.insns ∧
      code.handlers.mapM (Code.region pool labels) = .ok body.regions ∧
      body.locals = tables.locals.map (Code.localEntry labels) := by
  obtain ⟨insns', tables, regions, hlocated', _, hboundaries, hregions, rfl⟩ := Body.decode_eq_ok.mp h
  obtain rfl : insns = insns' := Except.ok.inj (hlocated.symm.trans hlocated')
  have horder := Code.inOrder_of_located hlocated
  refine ⟨tables, _, ⟨horder.reals_listOf, fun l hl t ht => ?_, fun o ho => ?_⟩, hregions, rfl⟩
  · exact Code.mem_referenced_target hl ht
  · exact ⟨_, horder.leadsTo?_listOf ho (hboundaries o ho), horder.offsetAt_numberAt (hboundaries o ho)⟩

/-! ## Lists that are laid out as they are -/

/-- An index that leads to what the instruction carries is kept, and nothing is added to the pool. -/
theorem Insn.poolIndex_eq {pool : ConstantPool} {insn : Insn} (hlaid : pool.LaidOut)
    (h : insn.Names pool insn.storedIndex) : insn.poolIndex = pure insn.storedIndex := by
  have hkept : ∀ {index : UInt16} {steps : Edit UInt16}, index ≠ 0 →
      (if index ≠ 0 then pure index else steps) = (pure index : Edit UInt16) :=
    fun hindex => if_pos hindex
  cases insn with
  | ldc index constant => exact hkept (hlaid.bind_ne_zero h)
  | field code index member =>
    obtain ⟨interface, h⟩ := h
    exact hkept (hlaid.bind_ne_zero h)
  | invoke code index member interface => exact hkept (hlaid.bind_ne_zero h)
  | invokeDynamic index name descriptor => exact hkept (hlaid.bind_ne_zero h)
  | type code index className => exact hkept (hlaid.bind_ne_zero h)
  | multiNewArray index descriptor dims => exact hkept (hlaid.bind_ne_zero h)
  | _ => rfl

namespace Layout

/-- The layout of a list whose instructions keep their indices. -/
def stored (list : InsnList) : Layout := ⟨list, list.positions, list.insns.map Insn.storedIndex⟩

theorem getD_stored {list : InsnList} {p : Nat} (hp : p < list.size) :
    (stored list).indices.getD p 0 = (list.insnAt p).storedIndex := by
  have hinsn := InsnList.getElem?_insns hp
  rw [Array.getElem?_toList] at hinsn
  rw [Array.getD_eq_getD_getElem?, stored, Array.getElem?_map, hinsn]
  rfl

theorem edit_ofList {pool : ConstantPool} {list : InsnList} (hlaid : pool.LaidOut)
    (h : ∀ p < list.size, (list.insnAt p).Names pool (list.insnAt p).storedIndex) :
    pool.edit (ofList list) = (.ok (stored list), pool) := by
  have hindices : pool.edit (list.insns.toList.mapM (·.poolIndex)) =
      (.ok (list.insns.toList.map Insn.storedIndex), pool) := by
    refine edit_mapM_same (List.forall₂_map_right_iff.mpr (List.forall₂_same.mpr fun insn hinsn => ?_))
    rw [InsnList.insns_eq_map] at hinsn
    obtain ⟨p, hp, rfl⟩ := List.mem_map.mp hinsn
    rw [Insn.poolIndex_eq hlaid (h p (List.mem_range.mp hp))]
    rfl
  unfold ofList
  rw [Array.mapM_eq_mapM_toList, map_eq_pure_bind, bind_assoc]
  refine edit_bind_eq_ok.mpr ⟨_, pool, hindices, ?_⟩
  rw [stored, ← Array.toList_map]
  rfl

end Layout

end DirectCall
