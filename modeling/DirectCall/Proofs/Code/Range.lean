import DirectCall.Proofs.Code.Laid
import DirectCall.Proofs.Code.Encode

/-!
# Regions, lines and local variables over offsets

A region, a line and a local variable entry are written with the offsets of nodes. What is written of them
is read back with the labels of these offsets.
-/

namespace DirectCall

open ConstantPool

namespace Layout

variable {l : Layout} {long : LongJumps} {offsets : Array Nat} {pool pool' : ConstantPool}

/-! ## What instructions name -/

/-- A list whose instructions are sound is laid out so that it can be written. -/
theorem writable_ofList {list : InsnList} (hsmall : pool.size ≤ 65535)
    (hsound : ∀ p < list.size, (list.insnAt p).Sound pool)
    (h : pool.edit (ofList list) = (.ok l, pool')) : l.list = list ∧ l.Writable pool' := by
  unfold ofList at h
  rw [Array.mapM_eq_mapM_toList, map_eq_pure_bind, bind_assoc] at h
  obtain ⟨indices, pool₁, hindices, hlast⟩ := edit_bind_eq_ok.mp h
  cases hlast
  have hall := edit_mapM (P := fun pool insn index => insn.Indexed pool index) Insn.adds_poolIndex
    (fun hgrows hindexed => hindexed.grow hgrows)
    (fun insn hinsn _ _ index hgrows hindex => by
      rw [InsnList.insns_eq_map] at hinsn
      obtain ⟨p, hp, rfl⟩ := List.mem_map.mp hinsn
      exact Insn.indexed_of_poolIndex (hgrows.small hsmall)
        ((hsound p (List.mem_range.mp hp)).grow hgrows) hindex) hindices
  refine ⟨rfl, rfl, fun p hp => (hsound p hp).fits, fun p hp => ?_⟩
  have hinside : p < list.insns.toList.length := by
    rw [InsnList.length_insns]
    exact hp
  have hindex : p < indices.length := hall.length_eq ▸ hinside
  have hget := hall.get hinside hindex
  have hinsn : list.insns.toList.get ⟨p, hinside⟩ = list.insnAt p := by
    have hfound := InsnList.getElem?_insns hp
    rw [List.getElem?_eq_getElem hinside] at hfound
    exact Option.some.inj hfound
  rw [hinsn] at hget
  simpa [Array.getD_eq_getD_getElem?, hindex] using hget

/-! ## Regions -/

/-- The index stands for what is caught. -/
def Catches (pool : ConstantPool) (index : UInt16) : Option String → Prop
  | none => index = 0
  | some name => index ≠ 0 ∧ pool.className index = .ok name

theorem Catches.none_or_some {index : UInt16} {catchType : Option String} (h : Catches pool index catchType) :
    index = 0 ∧ catchType = none ∨ ∃ name, pool.className index = .ok name ∧ catchType = some name := by
  cases catchType with
  | none => exact .inl ⟨h, rfl⟩
  | some name => exact .inr ⟨name, h.2, rfl⟩

/-- The region covers bytes. -/
def covers (l : Layout) (offsets : Array Nat) (r : Region) : Bool :=
  l.targetOf offsets r.start < l.targetOf offsets r.stop

/-- Nodes of a region, with the offsets they stand for. -/
def regionOffsets (l : Layout) (offsets : Array Nat) (r : Region) : List Nat :=
  [r.start, r.stop, r.handler].map (l.targetOf offsets)

/-- The region over labels of offsets. -/
def relabel (l : Layout) (offsets : Array Nat) (labels : Code.Labels) (r : Region) : Region :=
  ⟨labels.find (l.targetOf offsets r.start), labels.find (l.targetOf offsets r.stop),
    labels.find (l.targetOf offsets r.handler), r.catchType⟩

/-- The handler that a region is written as. -/
structure HandlerOf (pool : ConstantPool) (l : Layout) (offsets : Array Nat) (r : Region)
    (h : HandlerRange) : Prop where
  placed : ∀ id ∈ [r.start, r.stop, r.handler], l.IsPlaced id
  offsets_eq : [h.start.toNat, h.stop.toNat, h.handler.toNat] = l.regionOffsets offsets r
  catches : Catches pool h.catchType r.catchType

/-- A region is written as a handler if it covers bytes. -/
structure Handles (pool : ConstantPool) (l : Layout) (offsets : Array Nat) (r : Region)
    (found : Option HandlerRange) : Prop where
  ends : l.IsPlaced r.start ∧ l.IsPlaced r.stop
  found_eq : if l.covers offsets r then ∃ h, found = some h ∧ HandlerOf pool l offsets r h
    else found = none

theorem Catches.grow {index : UInt16} {catchType : Option String} (h : Catches pool index catchType)
    (hgrows : pool.Grows pool') : Catches pool' index catchType := by
  cases catchType with
  | none => exact h
  | some name => exact ⟨h.1, hgrows.className h.2⟩

theorem Handles.grow {r : Region} {found : Option HandlerRange} (h : Handles pool l offsets r found)
    (hgrows : pool.Grows pool') : Handles pool' l offsets r found := by
  obtain ⟨hends, hfound⟩ := h
  refine ⟨hends, ?_⟩
  split_ifs at hfound ⊢
  · obtain ⟨range, hfound, hrange⟩ := hfound
    exact ⟨range, hfound, hrange.placed, hrange.offsets_eq, hrange.catches.grow hgrows⟩
  · exact hfound

/-- The offset of a node fits into two bytes. -/
theorem toNat_targetOf (hpositions : l.positions = l.list.positions) (hsettled : l.Settled long offsets)
    (id : NodeId) : (l.targetOf offsets id).toUInt16.toNat = l.targetOf offsets id := by
  have hle := targetOf_le hpositions hsettled id
  rw [Nat.toUInt16_eq, UInt16.toNat_ofNat']
  omega

theorem handles_of_handler? {r : Region} {found : Option HandlerRange} (hlaid : pool.LaidOut)
    (hpositions : l.positions = l.list.positions) (hsettled : l.Settled long offsets)
    (h : pool.edit (l.handler? offsets r) = (.ok found, pool')) : Handles pool' l offsets r found := by
  obtain ⟨start, pool₁, hstart, h₁⟩ := edit_bind_eq_ok.mp h
  obtain ⟨hstartOffset, rfl⟩ := edit_liftM_eq_ok.mp hstart
  obtain ⟨stop, pool₂, hstop, h₂⟩ := edit_bind_eq_ok.mp h₁
  obtain ⟨hstopOffset, rfl⟩ := edit_liftM_eq_ok.mp hstop
  obtain ⟨hstartPlaced, rfl⟩ := offsetOf_eq_ok hstartOffset
  obtain ⟨hstopPlaced, rfl⟩ := offsetOf_eq_ok hstopOffset
  refine ⟨⟨hstartPlaced, hstopPlaced⟩, ?_⟩
  unfold covers
  split_ifs at h₂ with hle
  · cases h₂
    rw [if_neg (by simpa using hle)]
  · rw [if_pos (by simpa using hle)]
    have hrange : ∀ {catchType : UInt16} {pool₁ : ConstantPool}, Catches pool₁ catchType r.catchType →
        pool₁.edit (do
          let handler ← (liftM (l.offsetOf offsets r.handler) : Edit Nat)
          return some (HandlerRange.mk (l.targetOf offsets r.start).toUInt16
            (l.targetOf offsets r.stop).toUInt16 handler.toUInt16 catchType)) = (.ok found, pool') →
        ∃ h, found = some h ∧ HandlerOf pool' l offsets r h := by
      intro catchType pool₁ hcatch hrange
      obtain ⟨handler, pool₂, hhandler, hlast⟩ := edit_bind_eq_ok.mp hrange
      obtain ⟨hhandlerOffset, rfl⟩ := edit_liftM_eq_ok.mp hhandler
      obtain ⟨hplaced, rfl⟩ := offsetOf_eq_ok hhandlerOffset
      cases hlast
      refine ⟨_, rfl, ?_, ?_, hcatch⟩
      · intro id hid
        simp only [List.mem_cons, List.not_mem_nil, or_false] at hid
        rcases hid with rfl | rfl | rfl
        · exact hstartPlaced
        · exact hstopPlaced
        · exact hplaced
      · simp only [regionOffsets, List.map_cons, List.map_nil, toNat_targetOf hpositions hsettled]
    split at h₂
    · rename_i name hname
      obtain ⟨index, pool₁, hindex, h₃⟩ := edit_bind_eq_ok.mp h₂
      have hclass := className_of_classIndex hlaid.2 hindex
      have hlaid₁ := ((adds_classIndex name).grows hindex).laidOut hlaid
      refine hrange ?_ h₃
      rw [hname]
      exact ⟨hlaid₁.bind_ne_zero hclass, hclass⟩
    · rename_i hnone
      refine hrange (?_ : Catches pool 0 r.catchType) h₂
      rw [hnone]
      rfl

/-- A handler is read back as its region, over the labels of the offsets. -/
theorem HandlerOf.region {r : Region} {h : HandlerRange} (hrange : HandlerOf pool l offsets r h)
    (labels : Code.Labels) : Code.region pool labels h = .ok (l.relabel offsets labels r) := by
  obtain ⟨_, hoffsets, hcatch⟩ := hrange
  simp only [regionOffsets, List.map_cons, List.map_nil, List.cons.injEq, and_true] at hoffsets
  rw [Code.region, hoffsets.1, hoffsets.2.1, hoffsets.2.2, relabel]
  cases hname : r.catchType with
  | none =>
    rw [hname] at hcatch
    have hzero : h.catchType = 0 := hcatch
    rw [if_pos hzero]
    rfl
  | some name =>
    rw [hname] at hcatch
    rw [if_neg hcatch.1, hcatch.2]
    rfl

/-- The handlers are those of the regions that cover bytes. -/
theorem handlers_of_handles {regions : List Region} {founds : List (Option HandlerRange)}
    (h : List.Forall₂ (Handles pool l offsets) regions founds) :
    List.Forall₂ (HandlerOf pool l offsets) (regions.filter (l.covers offsets)) (founds.filterMap id) := by
  induction h with
  | nil => exact .nil
  | @cons r found regions founds hr _ ih =>
    have hfound := hr.found_eq
    split_ifs at hfound with hcovers
    · obtain ⟨range, rfl, hrange⟩ := hfound
      rw [List.filter_cons_of_pos hcovers]
      exact .cons hrange ih
    · subst hfound
      rw [List.filter_cons_of_neg hcovers]
      exact ih

/-! ## Lines -/

/-- The line at a position, with its offset. -/
def lineOffset? (l : Layout) (offsets : Array Nat) (position : Nat) : Option (Nat × UInt16) :=
  match l.list.insnAt position with
  | .line number =>
    if offsets.getD position 0 < offsets.getD l.size 0 then some (offsets.getD position 0, number)
    else none
  | _ => none

/-- Lines with the offsets they stand at, those behind the last instruction left out. -/
def lineOffsets (l : Layout) (offsets : Array Nat) : List (Nat × UInt16) :=
  (List.range l.size).filterMap (l.lineOffset? offsets)

theorem fst_of_lineOffset? {p : Nat} {e : Nat × UInt16} (h : l.lineOffset? offsets p = some e) :
    e.1 = offsets.getD p 0 ∧ offsets.getD p 0 < offsets.getD l.size 0 := by
  unfold lineOffset? at h
  split at h
  · split_ifs at h with hlt
    cases h
    exact ⟨rfl, hlt⟩
  · cases h

/-- Lines are written in the order of their offsets. -/
theorem sorted_lineOffsets (hsettled : l.Settled long offsets) :
    (l.lineOffsets offsets).Pairwise fun e e' => e.1 ≤ e'.1 := by
  rw [lineOffsets, List.pairwise_filterMap]
  refine List.pairwise_lt_range.imp_of_mem fun {p q} _ hq hlt e he e' he' => ?_
  rw [(fst_of_lineOffset? he).1, (fst_of_lineOffset? he').1, hsettled.offsets_eq]
  exact offsets_le long (Nat.le_of_lt hlt) (Nat.le_of_lt (List.mem_range.mp hq))

/-- What is written of the lines. -/
theorem filterMap_line? (hsettled : l.Settled long offsets) :
    ((List.range l.size).filterMap (l.line? offsets)).map (fun e => (e.1.toNat, e.2)) =
      l.lineOffsets offsets := by
  rw [List.map_filterMap]
  refine List.filterMap_congr fun p _ => ?_
  unfold line? lineOffset?
  cases l.list.insnAt p with
  | line number =>
    dsimp only
    split_ifs with hlt
    · have hsmall := hsettled.small
      have hvalue : (offsets.getD p 0).toUInt16.toNat = offsets.getD p 0 := by
        rw [Nat.toUInt16_eq, UInt16.toNat_ofNat']
        omega
      rw [Option.map_some, hvalue]
    · rfl
  | _ => rfl

/-! ## Local variables -/

/-- The range of a local variable entry. -/
def localRange (l : Layout) (offsets : Array Nat) (isTypeEntry : Bool) (v : LocalEntry) :
    Code.LocalRange :=
  ⟨l.targetOf offsets v.start, l.targetOf offsets v.stop, v.nameIndex, v.descriptorIndex, v.index,
    isTypeEntry⟩

/-- What is written of an entry that is not reversed. -/
theorem localRange?_eq_ok {v : LocalEntry} {found : Option (LocalEntry × UInt16 × UInt16)}
    (h : l.localRange? offsets v = .ok found)
    (hordered : l.IsPlaced v.start → l.IsPlaced v.stop →
      l.targetOf offsets v.start ≤ l.targetOf offsets v.stop) :
    (l.IsPlaced v.start ∧ l.IsPlaced v.stop) ∧ found = some (v, (l.targetOf offsets v.start).toUInt16,
      (l.targetOf offsets v.stop - l.targetOf offsets v.start).toUInt16) := by
  obtain ⟨start, hstart, h⟩ := bind_eq_ok.mp h
  obtain ⟨stop, hstop, h⟩ := bind_eq_ok.mp h
  obtain ⟨hstartPlaced, rfl⟩ := offsetOf_eq_ok hstart
  obtain ⟨hstopPlaced, rfl⟩ := offsetOf_eq_ok hstop
  rw [if_pos (hordered hstartPlaced hstopPlaced)] at h
  cases h
  exact ⟨⟨hstartPlaced, hstopPlaced⟩, rfl⟩

theorem rangeOf_localRange (hpositions : l.positions = l.list.positions)
    (hsettled : l.Settled long offsets) (isTypeEntry : Bool) {v : LocalEntry}
    (hordered : l.targetOf offsets v.start ≤ l.targetOf offsets v.stop) :
    EncodedCode.rangeOf isTypeEntry (v, (l.targetOf offsets v.start).toUInt16,
      (l.targetOf offsets v.stop - l.targetOf offsets v.start).toUInt16) =
        l.localRange offsets isTypeEntry v := by
  have hstop := targetOf_le hpositions hsettled v.stop
  have hlength : (l.targetOf offsets v.stop - l.targetOf offsets v.start).toUInt16.toNat =
      l.targetOf offsets v.stop - l.targetOf offsets v.start := by
    rw [Nat.toUInt16_eq, UInt16.toNat_ofNat']
    omega
  rw [EncodedCode.rangeOf, toNat_targetOf hpositions hsettled, hlength, Nat.add_sub_cancel' hordered]
  rfl

/-- The entries that are written are all of those that are not reversed, in their order. -/
theorem filterMap_localRange? {entries : List LocalEntry}
    {founds : List (Option (LocalEntry × UInt16 × UInt16))}
    (h : entries.mapM (l.localRange? offsets) = .ok founds)
    (hordered : ∀ v ∈ entries, l.IsPlaced v.start → l.IsPlaced v.stop →
      l.targetOf offsets v.start ≤ l.targetOf offsets v.stop) :
    (∀ v ∈ entries, l.IsPlaced v.start ∧ l.IsPlaced v.stop) ∧
      founds.filterMap id = entries.map fun v => (v, (l.targetOf offsets v.start).toUInt16,
        (l.targetOf offsets v.stop - l.targetOf offsets v.start).toUInt16) := by
  have hall := mapM_eq_ok.mp h
  clear h
  induction hall with
  | nil => exact ⟨fun v hv => absurd hv List.not_mem_nil, rfl⟩
  | @cons v found entries founds hv _ ih =>
    obtain ⟨hplaced, rfl⟩ := localRange?_eq_ok hv (hordered v List.mem_cons_self)
    obtain ⟨hothers, hfounds⟩ := ih fun v' hv' => hordered v' (List.mem_cons_of_mem _ hv')
    refine ⟨fun v' hv' => ?_, ?_⟩
    · rcases List.mem_cons.mp hv' with rfl | hv'
      · exact hplaced
      · exact hothers v' hv'
    · rw [List.map_cons, ← hfounds]
      rfl

end Layout

/-- A region that was read is over the labels of the handler's offsets, and catches what the handler names. -/
theorem Code.region_eq_ok {pool : ConstantPool} {labels : Labels} {h : HandlerRange} {r : Region}
    (hregion : region pool labels h = .ok r) : r.start = labels.find h.start.toNat ∧
      r.stop = labels.find h.stop.toNat ∧ r.handler = labels.find h.handler.toNat ∧
        Layout.Catches pool h.catchType r.catchType := by
  unfold region at hregion
  split_ifs at hregion with hzero
  · cases hregion
    exact ⟨rfl, rfl, rfl, hzero⟩
  · rw [map_eq_pure_bind] at hregion
    obtain ⟨_, hcatch, hlast⟩ := bind_eq_ok.mp hregion
    obtain ⟨name, hname, hsome⟩ := bind_eq_ok.mp hcatch
    cases hsome
    cases hlast
    exact ⟨rfl, rfl, rfl, hzero, hname⟩

end DirectCall
