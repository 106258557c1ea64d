import DirectCall.Proofs.Code.Linked
import DirectCall.Proofs.EditPlan.Apply

/-!
# Bodies that can be written

A body is made well (`Body.WellMade`) if its instructions can be written, and its local variable entries
span labels of its list. Every decoded body is (`Body.wellMade_of_decode`), and a body stays so when its
list is reworked (`Body.WellMade.rework`). It is sound then (`Body.WellMade.sound`), so that it is read back
when it was written.
-/

namespace DirectCall

open Code Bytes Bytes.Reader

/-- Both ends of the entry are labels of the list, and the first one is not behind the last. -/
structure LocalEntry.Spans (list : InsnList) (v : LocalEntry) : Prop where
  placed : v.start ∈ list.order ∧ v.stop ∈ list.order
  labels : list.get v.start = .label ∧ list.get v.stop = .label
  inOrder : list.rank v.start ≤ list.rank v.stop

/-- All instructions can be written, and all local variable entries span labels. -/
structure Body.WellMade (pool : ConstantPool) (body : Body) : Prop where
  proper : body.insns.Proper
  insns : ∀ id ∈ body.insns.order, (body.insns.get id).Sound pool
  locals : ∀ v ∈ body.locals, v.Spans body.insns

theorem LocalEntry.Spans.ordered {list : InsnList} {v : LocalEntry} (h : v.Spans list) (hproper : list.Proper) :
    v.Ordered list := by
  intro first last hfirst hlast
  have hfind : ∀ {id}, id ∈ list.order → list.positions.find? id = some (list.rank id) := by
    intro id hid
    obtain ⟨hp, hidAt⟩ := hproper.rank_lt hid
    conv_lhs => rw [← hidAt]
    exact hproper.find?_idAt hp
  rw [InsnList.leadsTo?, hfind h.placed.1] at hfirst
  rw [InsnList.leadsTo?, hfind h.placed.2] at hlast
  cases hfirst
  cases hlast
  exact InsnList.ahead_le h.inOrder (Nat.le_of_lt (hproper.rank_lt h.placed.2).1)

theorem Body.WellMade.sound {pool : ConstantPool} {body : Body} (h : body.WellMade pool) : body.Sound pool :=
  ⟨fun p hp => h.insns _ (InsnList.mem_order.mpr ⟨p, hp, rfl⟩), fun v hv => (h.locals v hv).ordered h.proper⟩

/-! ## Decoded bodies -/

namespace Code

theorem gives_readLocal (isTypeEntry : Bool) : (readLocal isTypeEntry).Gives fun r => r.start ≤ r.stop := by
  refine advances_u16.bind fun start => advances_u16.bind fun length => ?_
  exact advances_u16.bind fun _ => advances_u16.bind fun _ => advances_u16.bind fun _ =>
    gives_pure (Nat.le_add_right _ _)

theorem Tables.add_forward {pool : ConstantPool} {tables tables' : Tables} {a : Attribute}
    (h : tables.add pool a = .ok tables') (hold : ∀ r ∈ tables.locals, r.start ≤ r.stop) :
    ∀ r ∈ tables'.locals, r.start ≤ r.stop := by
  have hmore : ∀ {isTypeEntry : Bool} {ranges : List LocalRange},
      (Reader.table (readLocal isTypeEntry)).of a.info = .ok ranges →
      ∀ r ∈ tables.locals ++ ranges, r.start ≤ r.stop := by
    intro isTypeEntry ranges hranges r hr
    rcases List.mem_append.mp hr with hr | hr
    · exact hold r hr
    · exact (advances_u16.bind fun count => (gives_readLocal isTypeEntry).times count.toNat).of hranges r hr
  obtain ⟨name, _, h⟩ := bind_eq_ok.mp h
  split_ifs at h
  · obtain ⟨lines, _, h⟩ := bind_eq_ok.mp h
    cases h
    exact hold
  · obtain ⟨ranges, hranges, h⟩ := bind_eq_ok.mp h
    cases h
    exact hmore hranges
  · obtain ⟨ranges, hranges, h⟩ := bind_eq_ok.mp h
    cases h
    exact hmore hranges
  · cases h
    exact hold

/-- No range of a local variable that was read is reversed. -/
theorem Tables.ofAttributes_forward {pool : ConstantPool} {attributes : List Attribute} {tables : Tables}
    (h : Tables.ofAttributes pool attributes = .ok tables) : ∀ r ∈ tables.locals, r.start ≤ r.stop := by
  have hfold : ∀ (attributes : List Attribute) (start : Tables), (∀ r ∈ start.locals, r.start ≤ r.stop) →
      attributes.foldlM (Tables.add pool) start = .ok tables → ∀ r ∈ tables.locals, r.start ≤ r.stop := by
    intro attributes
    induction attributes with
    | nil =>
      intro start hstart h
      cases h
      exact hstart
    | cons first rest ih =>
      intro start hstart h
      obtain ⟨next, hnext, h⟩ := bind_eq_ok.mp h
      exact ih next (Tables.add_forward hnext hstart) h
  exact hfold attributes ⟨[], []⟩ (by simp) h

/-- A range of offsets with labels becomes an entry that spans them. -/
theorem InOrder.spans {length : Nat} {insns : List Located} {references : List Nat}
    {table : List (Nat × UInt16)} (h : InOrder length insns) {r : LocalRange} (hle : r.start ≤ r.stop)
    (hstart : r.start ∈ references ∧ IsBoundary length insns r.start)
    (hstop : r.stop ∈ references ∧ IsBoundary length insns r.stop) :
    (localEntry (labelsOf length references) r).Spans (listOf length insns references table) := by
  obtain ⟨p, hp, hfirst, hahead⟩ := @InOrder.exists_label length insns references table h _ hstart.1 hstart.2
  obtain ⟨q, hq, hlast, hahead'⟩ := @InOrder.exists_label length insns references table h _ hstop.1 hstop.2
  have hproper := (@InOrder.listOf_spec length insns references table h).1
  have hlabels : (localEntry (labelsOf length references) r).start =
        (listOf length insns references table).idAt p ∧
      (localEntry (labelsOf length references) r).stop = (listOf length insns references table).idAt q := by
    rw [localEntry, Labels.find, Labels.find, hfirst, hlast]
    exact ⟨rfl, rfl⟩
  refine ⟨?_, ?_, ?_⟩
  · rw [hlabels.1, hlabels.2]
    exact ⟨InsnList.mem_order.mpr ⟨p, hp, rfl⟩, InsnList.mem_order.mpr ⟨q, hq, rfl⟩⟩
  · rw [hlabels.1, hlabels.2]
    exact ⟨h.get_label hfirst, h.get_label hlast⟩
  · rw [hlabels.1, hlabels.2, hproper.rank_idAt hp, hproper.rank_idAt hq]
    by_contra hbehind
    -- The label of the end is ahead of that of the start, so both offsets lead to one instruction.
    have hge := InsnList.ahead_le (Nat.le_of_lt (Nat.lt_of_not_le hbehind)) (Nat.le_of_lt hp)
    have hle' : numberAt insns r.start ≤ numberAt insns r.stop :=
      List.countP_mono_left fun l _ hl => by
        rw [decide_eq_true_eq] at hl ⊢
        omega
    have hsame : numberAt insns r.start = numberAt insns r.stop := by omega
    have heq : r.start = r.stop := by
      rw [← h.offsetAt_numberAt hstart.2, hsame, h.offsetAt_numberAt hstop.2]
    rw [heq] at hfirst
    have hid := Option.some.inj (hfirst.symm.trans hlast)
    have hpq := hproper.idAt_inj hp hq hid
    omega

end Code

/-- A decoded body is made well. -/
theorem Body.wellMade_of_decode {pool : ConstantPool} {code : CodeAttribute} {body : Body}
    (h : Body.decode pool code = .ok body) : body.WellMade pool := by
  obtain ⟨insns, tables, regions, hlocated, htables, hboundaries, _, hbody⟩ := Body.decode_eq_ok.mp h
  obtain ⟨_, _, hlinked, _, _⟩ := Body.linked_of_decode h hlocated
  refine ⟨decode_proper h, fun id hid => ?_, fun v hv => ?_⟩
  · obtain ⟨p, hp, rfl⟩ := InsnList.mem_order.mp hid
    obtain ⟨hfits, hnames⟩ := hlinked.fits_names hlocated hp
    exact ⟨hfits, fun _ => hnames⟩
  · rw [hbody] at hv ⊢
    obtain ⟨r, hr, rfl⟩ := List.mem_map.mp hv
    have hreferenced : ∀ o ∈ [r.start, r.stop], o ∈ referenced insns code.handlers tables :=
      fun o ho => mem_referenced_range hr ho
    have hstart := hreferenced r.start (by simp)
    have hstop := hreferenced r.stop (by simp)
    exact (inOrder_of_located hlocated).spans (Tables.ofAttributes_forward htables r hr)
      ⟨hstart, hboundaries _ hstart⟩ ⟨hstop, hboundaries _ hstop⟩

/-! ## Lists that are reworked -/

/-- An instruction that fits and has no index yet. -/
def Insn.IsFresh (insn : Insn) : Prop := insn.Fits ∧ insn.storedIndex = 0

theorem Insn.IsFresh.sound {insn : Insn} (h : insn.IsFresh) (pool : ConstantPool) : insn.Sound pool :=
  ⟨h.1, fun hindex => absurd h.2 hindex⟩

namespace InsnList

/-- The second list is what a plan made of the first one: new instructions are fresh, and all labels and
lines are still there. -/
structure Reworked (list list' : InsnList) (plan : EditPlan) : Prop where
  proper : list'.Proper
  order : list'.order = plan.apply list.order
  nodes : ∃ made : List Insn, list'.nodes = list.nodes ++ made.toArray ∧ ∀ insn ∈ made, insn.IsFresh
  old : ∀ id ∈ list'.order, id ∈ list.order ∨ list.nodes.size ≤ id.index
  labels : ∀ id ∈ list.order, (list.get id).isReal = false → id ∈ list'.order

section

variable {list list' now : InsnList} {plan : EditPlan}

theorem Reworked.get_of_lt (h : list.Reworked list' plan) {id : NodeId} (hid : id.index < list.nodes.size) :
    list'.get id = list.get id := by
  obtain ⟨made, hnodes, _⟩ := h.nodes
  rw [get, get, hnodes, Array.getElem?_append_left hid]

theorem Reworked.isFresh (h : list.Reworked list' plan) {id : NodeId} (hid : id ∈ list'.order)
    (hnew : list.nodes.size ≤ id.index) : (list'.get id).IsFresh := by
  obtain ⟨made, hnodes, hfresh⟩ := h.nodes
  have howned := h.proper.owned id hid
  simp only [hnodes, Array.size_append, List.size_toArray] at howned
  have hinside : id.index - list.nodes.size < made.length := by omega
  rw [get, hnodes, Array.getElem?_append_right hnew, List.getElem?_toArray, List.getElem?_eq_getElem hinside]
  exact hfresh _ (List.getElem_mem hinside)

/-- An entry whose ends are not placed elsewhere spans its labels still. -/
theorem Reworked.spans (h : list.Reworked list' plan) (hproper : list.Proper) {v : LocalEntry}
    (hv : v.Spans list)
    (hfixed : ∀ anchor, v.start ∉ plan.insertedBefore anchor ∧ v.stop ∉ plan.insertedBefore anchor) :
    v.Spans list' := by
  obtain ⟨⟨hstart, hstop⟩, ⟨hfirst, hlast⟩, hle⟩ := hv
  have hstart' := h.labels _ hstart (by rw [hfirst]; rfl)
  have hstop' := h.labels _ hstop (by rw [hlast]; rfl)
  refine ⟨⟨hstart', hstop'⟩, ⟨?_, ?_⟩, ?_⟩
  · rw [h.get_of_lt (hproper.owned _ hstart), hfirst]
  · rw [h.get_of_lt (hproper.owned _ hstop), hlast]
  · have hrank := hproper.rank_commit hle hstart hstop hfixed (h.order ▸ hstart')
    rw [rank, rank, h.order]
    exact hrank

/-! ## Plans that move nothing -/

/-- What is recorded about a list places new nodes of fresh instructions, and removes real instructions. -/
structure Recorded (list now : InsnList) (plan : EditPlan) : Prop where
  order : now.order = list.order
  nodes : ∃ made : List Insn, now.nodes = list.nodes ++ made.toArray ∧ ∀ insn ∈ made, insn.IsFresh
  placed : ∀ anchor, ∀ id ∈ plan.insertedBefore anchor,
    anchor ∈ list.order ∧ list.nodes.size ≤ id.index ∧ id.index < now.nodes.size
  moved : ∀ id, plan.moved.contains id = false
  removed : ∀ id, plan.removed.contains id = true → (list.get id).isReal = true

namespace Recorded

theorem start (list : InsnList) : list.Recorded list .empty where
  order := rfl
  nodes := ⟨[], by simp, by simp⟩
  placed anchor id hid := by simp [EditPlan.insertedBefore, EditPlan.empty] at hid
  moved id := by simp [EditPlan.empty]
  removed id hid := by simp [EditPlan.empty] at hid

theorem remove (h : list.Recorded now plan) {id : NodeId} (hreal : (list.get id).isReal = true) :
    list.Recorded now (plan.remove id) where
  order := h.order
  nodes := h.nodes
  placed := h.placed
  moved := h.moved
  removed n hn := by
    rw [EditPlan.contains_remove, Bool.or_eq_true, decide_eq_true_eq] at hn
    rcases hn with hn | rfl
    · exact h.removed n hn
    · exact hreal

theorem removeAll (h : list.Recorded now plan) {ids : List NodeId}
    (hreal : ∀ id ∈ ids, (list.get id).isReal = true) : list.Recorded now (plan.removeAll ids) := by
  induction ids generalizing plan with
  | nil => exact h
  | cons first rest ih =>
    obtain ⟨hfirst, hrest⟩ := List.forall_mem_cons.mp hreal
    exact ih (h.remove hfirst) hrest

/-- Fresh instructions are placed ahead of a node. -/
theorem insertNew (h : list.Recorded now plan) {insns : List Insn} (hfresh : ∀ insn ∈ insns, insn.IsFresh)
    {anchor : NodeId} (hanchor : anchor ∈ list.order) :
    list.Recorded (now.createAll insns).1 (plan.insertBefore anchor (now.createAll insns).2) := by
  obtain ⟨made, hnodes, hmade⟩ := h.nodes
  rw [createAll_eq]
  refine ⟨h.order, ⟨made ++ insns, ?_, fun insn hinsn => ?_⟩, fun anchor' id hid => ?_, h.moved, h.removed⟩
  · simp [hnodes]
  · rcases List.mem_append.mp hinsn with hinsn | hinsn
    · exact hmade insn hinsn
    · exact hfresh insn hinsn
  · have hsize : list.nodes.size ≤ now.nodes.size := by
      rw [hnodes, Array.size_append]
      exact Nat.le_add_right _ _
    have hnew : ∀ id ∈ now.freshIds insns.length,
        list.nodes.size ≤ id.index ∧ id.index < (now.nodes ++ insns.toArray).size := by
      intro id hid
      rw [freshIds_eq, NodeId.mem_numbered] at hid
      simp only [Array.size_append, List.size_toArray]
      omega
    have hold : ∀ anchor', ∀ id ∈ plan.insertedBefore anchor', anchor' ∈ list.order ∧
        list.nodes.size ≤ id.index ∧ id.index < (now.nodes ++ insns.toArray).size := by
      intro anchor' id hid
      obtain ⟨hmem, hle, hlt⟩ := h.placed anchor' id hid
      rw [Array.size_append]
      exact ⟨hmem, hle, Nat.lt_of_lt_of_le hlt (Nat.le_add_right _ _)⟩
    rw [EditPlan.insertedBefore_insertBefore] at hid
    split_ifs at hid with heq
    · rw [heq]
      rcases List.mem_append.mp hid with hid | hid
      · exact hold anchor id hid
      · exact ⟨hanchor, hnew id hid⟩
    · exact hold anchor' id hid

/-- A node of the list is not placed ahead of another one. -/
theorem fixed (h : list.Recorded now plan) (hproper : list.Proper) {id : NodeId} (hid : id ∈ list.order)
    (anchor : NodeId) : id ∉ plan.insertedBefore anchor := by
  intro hmem
  have hnew := (h.placed anchor id hmem).2.1
  have hlt := hproper.owned id hid
  omega

theorem reworked (h : list.Recorded now plan) (hproper : list.Proper) :
    list.Reworked (now.commit plan) plan := by
  have horder : (now.commit plan).order = plan.apply list.order := by rw [commit, h.order]
  refine ⟨⟨plan.apply_nodup _, fun id hid => ?_⟩, horder, h.nodes, fun id hid => ?_, fun id hid hreal => ?_⟩
  · rw [horder] at hid
    obtain ⟨hold | ⟨anchor, hnew⟩, _⟩ := EditPlan.mem_apply hid
    · obtain ⟨made, hnodes, _⟩ := h.nodes
      rw [commit, hnodes, Array.size_append]
      exact Nat.lt_of_lt_of_le (hproper.owned id hold) (Nat.le_add_right _ _)
    · exact (h.placed anchor id hnew).2.2
  · rw [horder] at hid
    obtain ⟨hold | ⟨anchor, hnew⟩, _⟩ := EditPlan.mem_apply hid
    · exact .inl hold
    · exact .inr (h.placed anchor id hnew).2.1
  · rw [horder]
    refine @EditPlan.mem_apply_of_not_removed plan list.rank _ (fun anchor n hn => ?_) (fun n hn => ?_) id hid ?_
    · obtain ⟨hanchor, hnew, _⟩ := h.placed anchor n hn
      rw [hproper.rank_new hnew]
      exact (hproper.rank_lt hanchor).1
    · rw [h.moved n] at hn
      cases hn
    · refine Bool.eq_false_iff.mpr fun hremoved => ?_
      rw [h.removed id hremoved] at hreal
      cases hreal

end Recorded

end

end InsnList

namespace Body.WellMade

variable {pool : ConstantPool} {body body' : Body} {plan : EditPlan}

/-- If its list is reworked, with the ends of local variable entries where they were, a body is made well
still. -/
theorem rework (h : body.WellMade pool) (hreworked : body.insns.Reworked body'.insns plan)
    (hlocals : body'.locals = body.locals)
    (hfixed : ∀ v ∈ body.locals, ∀ anchor,
      v.start ∉ plan.insertedBefore anchor ∧ v.stop ∉ plan.insertedBefore anchor) : body'.WellMade pool := by
  refine ⟨hreworked.proper, fun id hid => ?_, fun v hv => ?_⟩
  · rcases hreworked.old id hid with hold | hnew
    · rw [hreworked.get_of_lt (h.proper.owned id hold)]
      exact h.insns id hold
    · exact (hreworked.isFresh hid hnew).sound pool
  · rw [hlocals] at hv
    exact hreworked.spans h.proper (h.locals v hv) (hfixed v hv)

/-- What was recorded without moves is carried out. -/
theorem commit {now : InsnList} (h : body.WellMade pool) (hrecorded : body.insns.Recorded now plan) :
    ({ body with insns := now.commit plan } : Body).WellMade pool :=
  h.rework (hrecorded.reworked h.proper) rfl fun v hv anchor =>
    ⟨hrecorded.fixed h.proper (h.locals v hv).placed.1 anchor,
      hrecorded.fixed h.proper (h.locals v hv).placed.2 anchor⟩

end Body.WellMade

end DirectCall
