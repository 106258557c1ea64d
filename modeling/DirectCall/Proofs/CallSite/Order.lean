import DirectCall.Proofs.CallSite.Ahead
import DirectCall.Proofs.CallSite.Substitution
import DirectCall.Proofs.CallSite.Unread
import DirectCall.Proofs.EditPlan.Forest

/-!
# The order after replacement

The code that moves for one call is apart from that of all others (`Replacement.swaps_apart`), so no node waits for
another one that waits. The new order therefore goes from position to position, with the nodes that are in the place
of each (`Replacement.order_eq`).
-/

namespace DirectCall

open EditPlan Relation

theorem InsnList.toList_order (list : InsnList) : list.order.toList = (List.range list.size).map list.idAt := by
  refine List.ext_getElem (by simp [InsnList.size]) fun p hp hp' => ?_
  rw [List.getElem_map, List.getElem_range, Array.getElem_toList, InsnList.idAt,
    Array.getElem?_eq_getElem (by simpa using hp), Option.getD_some]

/-- A node is made for one draft only. -/
theorem Draft.eq_of_mem {start : Nat} {edits : List SiteEdit} {d d' : Draft} (h : d ∈ ofEdits start edits)
    (h' : d' ∈ ofEdits start edits) {id : NodeId} (hid : id ∈ d.stores ++ d.block)
    (hid' : id ∈ d'.stores ++ d'.block) : d = d' := by
  have hnodup := NodeId.nodup_numbered start (edits.flatMap (·.made)).length
  rw [← ids_ofEdits, List.nodup_flatMap] at hnodup
  by_contra hne
  have : Std.Symm (Function.onFun List.Disjoint fun d : Draft => d.stores ++ d.block) :=
    ⟨fun _ _ hdisjoint => List.disjoint_symm hdisjoint⟩
  exact hnodup.2.forall h h' hne hid hid'

/-- The nodes in the place of a node: none if it moves away, else what is placed ahead of it and itself, without
what is removed. -/
def EditPlan.nodesAt (plan : EditPlan) (id : NodeId) : List NodeId :=
  if plan.moved.contains id then [] else (plan.insertedBefore id ++ [id]).filter fun n => !plan.removed.contains n

namespace Replacement

variable {ctx : MethodContext} {a : SiteAnalysis} {body body' : Body} {decisions : List Decision}
  {plan : EditPlan} {d d' : Draft} (h : Replacement ctx a body body' decisions plan)

include h

/-! ## Moves are apart -/

/-- Where code moves, no other code moves to or from. -/
theorem swaps_apart {c c' : Decision} (hc : c ∈ decisions) (hc' : c' ∈ decisions) {code code' : Span}
    {r r' q : Nat} (hswaps : a.Swaps c.position code r) (hswaps' : a.Swaps c'.position code' r')
    (hq : r ≤ q ∧ q < c.position) (hq' : r' ≤ q ∧ q < c'.position) : c = c' := by
  have hpasses : ∀ {c c' : Decision} {code' : Span} {r' : Nat}, c ∈ decisions → a.Swaps c'.position code' r' →
      r' ≤ c.position → ¬ c.position < c'.position := by
    intro c c' code' r' hc hswaps hle hlt
    have hpure := hswaps.pure c.position hle hlt
    rw [h.insnAt, (h.call_lt hc).2] at hpure
    cases hpure
  refine h.position_inj hc hc' (Nat.le_antisymm ?_ ?_)
  · exact Nat.le_of_not_lt (hpasses hc' hswaps (by omega))
  · exact Nat.le_of_not_lt (hpasses hc hswaps' (by omega))

/-- The move of a draft, and the call that it is for. -/
theorem exists_swaps (hd : d ∈ Draft.ofEdits body.insns.nodes.size (a.edits decisions)) {anchor : NodeId}
    {ids : List NodeId} {store : Insn} (hmove : d.edit.move = some (anchor, ids, store)) :
    ∃ c ∈ decisions, c.edit? a = some d.edit ∧ ∃ code r, a.Swaps c.position code r ∧
      code.stop ≤ c.position ∧ c.position < body.insns.size ∧ anchor = body.insns.idAt r ∧
        ids = code.positions.map body.insns.idAt := by
  obtain ⟨c, hc, hedit, site, hcarries, hcall⟩ := h.exists_decision (mem_edits hd)
  obtain ⟨code, r, hswaps, rfl, rfl, _⟩ := hcarries.moved anchor ids store hmove
  rw [hcall] at hswaps
  exact ⟨c, hc, hedit, code, r, hswaps, (SiteAnalysis.spanOf_bounds hswaps.array).2, (h.call_lt hc).1, h.idAt r,
    List.map_congr_left fun q _ => h.idAt q⟩

theorem eq_of_site (hproper : body.insns.Proper)
    (hd : d ∈ Draft.ofEdits body.insns.nodes.size (a.edits decisions))
    (hd' : d' ∈ Draft.ofEdits body.insns.nodes.size (a.edits decisions)) (hsite : d.edit.site = d'.edit.site) :
    d = d' :=
  List.inj_on_of_nodup_map (h.drafts_nodup hproper) hd hd' hsite

/-- Moves that have a position in common are one. -/
theorem eq_of_swaps (hproper : body.insns.Proper)
    (hd : d ∈ Draft.ofEdits body.insns.nodes.size (a.edits decisions))
    (hd' : d' ∈ Draft.ofEdits body.insns.nodes.size (a.edits decisions)) {c c' : Decision} (hc : c ∈ decisions)
    (hc' : c' ∈ decisions) (hedit : c.edit? a = some d.edit) (hedit' : c'.edit? a = some d'.edit)
    {code code' : Span} {r r' q : Nat} (hswaps : a.Swaps c.position code r)
    (hswaps' : a.Swaps c'.position code' r') (hq : r ≤ q ∧ q < c.position) (hq' : r' ≤ q ∧ q < c'.position) :
    d = d' := by
  obtain rfl := h.swaps_apart hc hc' hswaps hswaps' hq hq'
  refine h.eq_of_site hproper hd hd' ?_
  rw [Option.some.inj (hedit.symm.trans hedit')]

/-! ## What stands ahead of a node -/

/-- A node has ahead of it what one draft places there, if no other one places anything there. -/
theorem insertedBefore_of_alone (hproper : body.insns.Proper)
    (hd : d ∈ Draft.ofEdits body.insns.nodes.size (a.edits decisions)) {anchor : NodeId}
    (hother : ∀ d' ∈ Draft.ofEdits body.insns.nodes.size (a.edits decisions), d' ≠ d → d'.placed anchor = []) :
    plan.insertedBefore anchor = d.placed anchor := by
  have hnodup := (h.drafts_nodup hproper).of_map
  obtain ⟨front, back, hsplit⟩ := List.append_of_mem hd
  rw [hsplit, List.nodup_middle, List.nodup_cons] at hnodup
  rw [hsplit] at hother
  have hnone : ∀ drafts : List Draft, (∀ d' ∈ drafts, d' ∈ front ++ back) → drafts.flatMap (·.placed anchor) = [] := by
    intro drafts hdrafts
    refine List.flatMap_eq_nil_iff.mpr fun d' hd' => hother d' ?_ ?_
    · rcases List.mem_append.mp (hdrafts d' hd') with hmem | hmem <;> simp [hmem]
    · rintro rfl
      exact hnodup.1 (hdrafts d' hd')
  rw [h.placed, hsplit, List.flatMap_append, List.flatMap_cons,
    hnone front fun d' => List.mem_append_left _, hnone back fun d' => List.mem_append_right _, List.nil_append,
    List.append_nil]

/-- Where code moves to, it stands with its store, and nothing else does. -/
theorem insertedBefore_anchor (hproper : body.insns.Proper)
    (hd : d ∈ Draft.ofEdits body.insns.nodes.size (a.edits decisions)) {anchor : NodeId} {ids : List NodeId}
    {store : Insn} (hmove : d.edit.move = some (anchor, ids, store)) :
    plan.insertedBefore anchor = ids ++ d.stores := by
  have hcall : ∀ {d' : Draft}, d' ∈ Draft.ofEdits body.insns.nodes.size (a.edits decisions) →
      anchor ≠ d'.edit.site := by
    rintro d' hd' rfl
    have hreflective := h.anchor_not_reflective (mem_edits hd) hmove
    rw [h.site_reflective (mem_edits hd')] at hreflective
    cases hreflective
  rw [h.insertedBefore_of_alone hproper hd fun d' hd' hne => Draft.placed_eq_nil (hcall hd') ?_, Draft.placed, hmove]
  · simp [hcall hd]
  · rintro target ids' store' hmove' rfl
    obtain ⟨c, hc, hedit, code, r, hswaps, hstop, hinside, rfl, _⟩ := h.exists_swaps hd hmove
    obtain ⟨c', hc', hedit', code', r', hswaps', hstop', hinside', heq, _⟩ := h.exists_swaps hd' hmove'
    have hbounds := SiteAnalysis.spanOf_bounds hswaps.array
    have hbounds' := SiteAnalysis.spanOf_bounds hswaps'.array
    have hahead := hswaps.ahead
    have hahead' := hswaps'.ahead
    obtain rfl := hproper.idAt_inj (by omega) (by omega) heq
    exact hne (h.eq_of_swaps hproper hd hd' hc hc' hedit hedit' hswaps hswaps' (q := r) ⟨le_rfl, by omega⟩
      ⟨le_rfl, by omega⟩).symm

/-- What has nodes ahead of it does not move. -/
theorem anchor_stays (hproper : body.insns.Proper) {anchor n : NodeId} (hn : n ∈ plan.insertedBefore anchor) :
    plan.moved.contains anchor = false := by
  obtain ⟨d, hd, ⟨ids, store, hmove, _⟩ | ⟨rfl, _⟩⟩ := h.placed_cases hn
  · rw [Bool.eq_false_iff]
    intro hmoved
    obtain ⟨e, he, hmem⟩ := (h.moved anchor).mp hmoved
    obtain ⟨d', hd', rfl⟩ := exists_draft_of_edit he
    unfold SiteEdit.movedIds at hmem
    cases hmove' : d'.edit.move with
    | none => simp [hmove'] at hmem
    | some move =>
      obtain ⟨anchor', ids', store'⟩ := move
      rw [hmove', Option.map_some, Option.getD_some] at hmem
      obtain ⟨c, hc, hedit, code, r, hswaps, hstop, hinside, rfl, _⟩ := h.exists_swaps hd hmove
      obtain ⟨c', hc', hedit', code', r', hswaps', hstop', hinside', _, rfl⟩ := h.exists_swaps hd' hmove'
      obtain ⟨q, hq, heq⟩ := List.mem_map.mp hmem
      have hq := Span.mem_positions.mp hq
      have hbounds := SiteAnalysis.spanOf_bounds hswaps.array
      have hahead := hswaps.ahead
      have hahead' := hswaps'.ahead
      obtain rfl := hproper.idAt_inj (by omega) (by omega) heq
      -- The move from there would be the move to there.
      obtain rfl := h.swaps_apart hc hc' hswaps hswaps' (q := q) ⟨le_rfl, by omega⟩ ⟨by omega, by omega⟩
      obtain rfl := Option.some.inj (hswaps.array.symm.trans hswaps'.array)
      omega
  · exact h.site_stays hd

/-- Nothing stands ahead of what stands ahead of a node. -/
theorem leaf (hproper : body.insns.Proper) {anchor n : NodeId} (hn : n ∈ plan.insertedBefore anchor) :
    plan.insertedBefore n = [] := by
  obtain ⟨d, hd, ⟨ids, store, hmove, hmem | hmem⟩ | ⟨_, hmem⟩⟩ := h.placed_cases hn
  · rw [List.eq_nil_iff_forall_not_mem]
    intro m hm
    have hmoved : plan.moved.contains n = true := by
      refine (h.moved n).mpr ⟨d.edit, mem_edits hd, ?_⟩
      rwa [SiteEdit.movedIds, hmove]
    rw [h.anchor_stays hproper hm] at hmoved
    cases hmoved
  · exact (h.new_leaf hproper (h.draft_bounds hd (List.mem_append_left _ hmem)).1).1
  · exact (h.new_leaf hproper (h.draft_bounds hd (List.mem_append_right _ hmem)).1).1

/-! ## The new order -/

theorem wellStaged (hproper : body.insns.Proper) : plan.WellStaged body.insns.order.toList := by
  have hnew : ∀ {d : Draft} {id : NodeId}, d ∈ Draft.ofEdits body.insns.nodes.size (a.edits decisions) →
      id ∈ d.stores ++ d.block → ∀ {q}, q < body.insns.size → id ≠ body.insns.idAt q := by
    rintro d id hd hid q hq rfl
    have hold := hproper.idAt_lt hq
    have := (h.draft_bounds hd hid).1
    omega
  constructor
  case once =>
    intro anchor
    rcases List.eq_nil_or_concat (plan.insertedBefore anchor) with hnone | ⟨_, n, hsome⟩
    · rw [hnone]
      exact List.nodup_nil
    have hn : n ∈ plan.insertedBefore anchor := by simp [hsome]
    obtain ⟨d, hd, ⟨ids, store, hmove, _⟩ | ⟨rfl, _⟩⟩ := h.placed_cases hn
    · obtain ⟨c, hc, _, code, r, hswaps, hstop, hinside, _, rfl⟩ := h.exists_swaps hd hmove
      rw [h.insertedBefore_anchor hproper hd hmove]
      refine List.nodup_append.mpr ⟨?_, NodeId.nodup_numbered _ _, ?_⟩
      · refine List.Nodup.map_on (fun p hp q hq heq => ?_) List.nodup_range'
        have hp := Span.mem_positions.mp hp
        have hq := Span.mem_positions.mp hq
        exact hproper.idAt_inj (by omega) (by omega) heq
      · rintro id hid _ hstore rfl
        obtain ⟨q, hq, rfl⟩ := List.mem_map.mp hid
        have hq := Span.mem_positions.mp hq
        exact hnew hd (List.mem_append_left _ hstore) (q := q) (by omega) rfl
    · rw [h.insertedBefore_site hproper hd]
      exact NodeId.nodup_numbered _ _
  case alone =>
    intro anchor anchor' id hid hid'
    obtain ⟨d, hd, hcases⟩ := h.placed_cases hid
    obtain ⟨d', hd', hcases'⟩ := h.placed_cases hid'
    have hmoves : ∀ {d : Draft} {anchor : NodeId} {ids store}, d ∈ Draft.ofEdits body.insns.nodes.size
        (a.edits decisions) → d.edit.move = some (anchor, ids, store) → id ∈ ids →
          ∃ c ∈ decisions, c.edit? a = some d.edit ∧ ∃ code r q, a.Swaps c.position code r ∧
            r ≤ q ∧ q < c.position ∧ q < body.insns.size ∧ id = body.insns.idAt q := by
      intro d anchor ids store hd hmove hmem
      obtain ⟨c, hc, hedit, code, r, hswaps, hstop, hinside, _, rfl⟩ := h.exists_swaps hd hmove
      obtain ⟨q, hq, rfl⟩ := List.mem_map.mp hmem
      have hq := Span.mem_positions.mp hq
      have hahead := hswaps.ahead
      exact ⟨c, hc, hedit, code, r, q, hswaps, by omega, by omega, by omega, rfl⟩
    -- A node that is placed is moved or new, and a new one is a store or stands at a call.
    rcases hcases with ⟨ids, store, hmove, hmem | hmem⟩ | ⟨hsite, hmem⟩ <;>
      rcases hcases' with ⟨ids', store', hmove', hmem' | hmem'⟩ | ⟨hsite', hmem'⟩
    · obtain ⟨c, hc, hedit, code, r, q, hswaps, hle, hlt, hq, rfl⟩ := hmoves hd hmove hmem
      obtain ⟨c', hc', hedit', code', r', q', hswaps', hle', hlt', hq', heq⟩ := hmoves hd' hmove' hmem'
      obtain rfl := hproper.idAt_inj hq hq' heq
      obtain rfl := h.eq_of_swaps hproper hd hd' hc hc' hedit hedit' hswaps hswaps' ⟨hle, hlt⟩ ⟨hle', hlt'⟩
      exact (Prod.mk.inj (Option.some.inj (hmove.symm.trans hmove'))).1
    · obtain ⟨_, _, _, _, _, q, _, _, _, hq, heq⟩ := hmoves hd hmove hmem
      exact absurd heq (hnew hd' (List.mem_append_left _ hmem') hq)
    · obtain ⟨_, _, _, _, _, q, _, _, _, hq, heq⟩ := hmoves hd hmove hmem
      exact absurd heq (hnew hd' (List.mem_append_right _ hmem') hq)
    · obtain ⟨_, _, _, _, _, q, _, _, _, hq, heq⟩ := hmoves hd' hmove' hmem'
      exact absurd heq (hnew hd (List.mem_append_left _ hmem) hq)
    · obtain rfl := Draft.eq_of_mem hd hd' (List.mem_append_left _ hmem) (List.mem_append_left _ hmem')
      exact (Prod.mk.inj (Option.some.inj (hmove.symm.trans hmove'))).1
    · obtain ⟨rfl, hout⟩ := Draft.eq_of_mem_ids hd' hd hmem' (List.mem_append_left _ hmem)
      exact absurd hmem hout
    · obtain ⟨_, _, _, _, _, q, _, _, _, hq, heq⟩ := hmoves hd' hmove' hmem'
      exact absurd heq (hnew hd (List.mem_append_right _ hmem) hq)
    · obtain ⟨rfl, hout⟩ := Draft.eq_of_mem_ids hd hd' hmem (List.mem_append_left _ hmem')
      exact absurd hmem' hout
    · obtain rfl := Draft.eq_of_mem hd hd' (List.mem_append_right _ hmem) (List.mem_append_right _ hmem')
      rw [hsite, hsite']
  case moves =>
    rintro id hid ⟨anchor, hanchor⟩
    obtain ⟨q, hq, rfl⟩ := InsnList.mem_order.mp (Array.mem_toList_iff.mp hid)
    obtain ⟨d, hd, ⟨ids, store, hmove, hmem | hmem⟩ | ⟨_, hmem⟩⟩ := h.placed_cases hanchor
    · refine (h.moved _).mpr ⟨d.edit, mem_edits hd, ?_⟩
      rwa [SiteEdit.movedIds, hmove]
    · exact absurd rfl (hnew hd (List.mem_append_left _ hmem) hq)
    · exact absurd rfl (hnew hd (List.mem_append_right _ hmem) hq)
  case placed =>
    intro id hid
    obtain ⟨e, he, hmem⟩ := (h.moved id).mp hid
    obtain ⟨d, hd, rfl⟩ := exists_draft_of_edit he
    unfold SiteEdit.movedIds at hmem
    cases hmove : d.edit.move with
    | none => simp [hmove] at hmem
    | some move =>
      obtain ⟨anchor, ids, store⟩ := move
      rw [hmove, Option.map_some, Option.getD_some] at hmem
      refine ⟨anchor, ?_⟩
      rw [Anchors, h.insertedBefore_anchor hproper hd hmove]
      exact List.mem_append_left _ hmem
  case rooted =>
    rintro id ⟨anchor, hanchor⟩
    exact ⟨anchor, Array.mem_toList_iff.mpr (h.anchor_rank hproper hanchor).1, h.anchor_stays hproper hanchor,
      .single hanchor⟩

/-- The new order goes from position to position. -/
theorem order_eq (hproper : body.insns.Proper) : body'.insns.order.toList =
    (List.range body.insns.size).flatMap fun q => plan.nodesAt (body.insns.idAt q) := by
  have hstaged := h.wellStaged hproper
  obtain ⟨rank, hrank⟩ := hstaged.exists_ranks
  have hblock : ∀ id, plan.block id = plan.insertedBefore id ++ [id] :=
    fun id => block_of_leaves fun n hn => h.leaf hproper hn
  rw [h.insns, apply_of_nodup (hstaged.nodup_blocks hrank hproper.distinct), InsnList.toList_order,
    List.filter_flatMap]
  induction List.range body.insns.size with
  | nil => rfl
  | cons q rest ih =>
    rw [List.map_cons, List.flatMap_cons, List.filter_cons, nodesAt]
    cases hmoved : plan.moved.contains (body.insns.idAt q) with
    | true => exact ih
    | false =>
      rw [if_pos (by rfl), if_neg Bool.false_ne_true, List.flatMap_cons, ih, hblock]

end Replacement

end DirectCall
