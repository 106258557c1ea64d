import DirectCall.Proofs.CallSite.Planning
import DirectCall.Proofs.CallSite.Draft
import DirectCall.Proofs.CallSite.Operand
import DirectCall.Proofs.EditPlan.Apply

/-!
# The edit of a body

Calls are replaced by one plan, which is put together from the decisions about them (`Replacement`).
Only real instructions are removed, and code moves to a place before it only, so that no move waits for
itself: a node that is not removed is still there (`mem_of_kept`), and the labels are (`label_kept`).
-/

namespace DirectCall

/-- A plan of nothing keeps the order. -/
theorem EditPlan.apply_empty {order : Array NodeId} (h : order.toList.Nodup) :
    EditPlan.empty.apply order = order := by
  have hnone : ∀ id, empty.insertedBefore id = [] := fun id => by simp [insertedBefore, empty]
  have hkept : ∀ id, empty.removed.contains id = false := fun id => by simp [empty]
  have hstays : ∀ id, empty.moved.contains id = false := fun id => by simp [empty]
  refine Array.toList_inj.mp ?_
  rw [apply_of_direct hstays (by simpa [hnone] using h) (by simp [hnone])]
  simp [hnone, hkept]

/-- The edits that are decided on. -/
def SiteAnalysis.edits (a : SiteAnalysis) (decisions : List Decision) : List SiteEdit :=
  decisions.filterMap (·.edit? a)

/-- How the calls of a body are replaced: what is decided about them, and the plan that is carried
out. -/
structure Replacement (ctx : MethodContext) (a : SiteAnalysis) (body body' : Body)
    (decisions : List Decision) (plan : EditPlan) : Prop where
  analysis : SiteAnalysis.run ctx.method body = .ok a
  calls : decisions.map (·.position) = a.reachedCalls
  planned : ∀ d ∈ decisions, ∀ site fresh, d.verdict = .ok (site, fresh) →
    ∃ spent frame, a.constants.getD d.position none = some frame ∧
      a.plan ctx spent d.position frame = .ok site
  idle : a.edits decisions = [] → body' = body
  insns : body'.insns = ⟨body.insns.nodes ++ ((a.edits decisions).flatMap (·.made)).toArray,
    plan.apply body.insns.order⟩
  placed : ∀ anchor, plan.insertedBefore anchor =
    (Draft.ofEdits body.insns.nodes.size (a.edits decisions)).flatMap (·.placed anchor)
  moved : ∀ id, plan.moved.contains id = true ↔ ∃ e ∈ a.edits decisions, id ∈ e.movedIds
  removes : ∀ e ∈ a.edits decisions, ∀ id, id = e.site ∨ id ∈ e.remove →
    plan.removed.contains id = true
  removed : ∀ id, plan.removed.contains id = true →
    (∃ e ∈ a.edits decisions, id = e.site ∨ id ∈ e.remove) ∨
      ∃ q, q < a.flow.size ∧ id = a.idAt q ∧ a.isReal q = true ∧
        (a.insnAt q).isReflectiveInvoke = false ∧ a.InDeadLookup (plan.removed.contains · = true) q

/-- The load of a method object goes away with its code. -/
theorem load_mem_remove {a : SiteAnalysis} {ctx : MethodContext} {spent : Std.HashSet Nat}
    {position : Nat} {frame : Frame ConstantValue} {site : PlannedSite} {id : NodeId}
    (h : a.plan ctx spent position frame = .ok site) (hload : site.methodLoad = some id)
    (fresh : UInt16) : id ∈ (site.edit a fresh).remove := by
  have hplanned := SiteAnalysis.planned_of_plan h
  obtain ⟨hspan, _⟩ := Option.filter_eq_some_iff.mp hplanned.methodCode
  have hgone := (SiteAnalysis.edit_carries h fresh).method
  rw [hplanned.methodLoad, SiteAnalysis.methodLoad?] at hload
  split at hload
  · rename_i hinsn
    split_ifs at hload
    rw [← Option.some.inj hload]
    refine hgone _ (Span.mem_positions.mpr ⟨le_rfl, (SiteAnalysis.spanOf_bounds hspan).1⟩) ?_
    rw [SiteAnalysis.isReal, hinsn]
    rfl
  · simp at hload

section Run

variable {ctx : MethodContext} {a : SiteAnalysis} {body : Body} {decisions : List Decision}

/-- A load of a method object that goes away is removed by the edit of its call. -/
theorem Planning.Decides.load_removed
    (h : Planning.Decides ctx a body a.reachedCalls decisions (Planning.run ctx a body)) {id : NodeId}
    (hload : (Planning.run ctx a body).loads.contains id = true) :
    ∃ e ∈ a.edits decisions, id ∈ e.remove := by
  obtain ⟨d, hd, hload⟩ := h.loads id hload
  unfold Decision.load? at hload
  split at hload
  · rename_i site fresh hverdict
    obtain ⟨spent, frame, _, hplan⟩ := h.planned d hd site fresh hverdict
    exact ⟨site.edit a fresh, List.mem_filterMap.mpr ⟨d, hd, by simp [Decision.edit?, hverdict]⟩,
      load_mem_remove hplan hload fresh⟩
  · simp at hload

/-- If nothing is edited, the body stays as it is. -/
theorem Replacement.of_idle (hproper : body.insns.Proper) (ha : SiteAnalysis.run ctx.method body = .ok a)
    (h : Planning.Decides ctx a body a.reachedCalls decisions (Planning.run ctx a body))
    (hidle : a.edits decisions = []) : Replacement ctx a body body decisions .empty where
  analysis := ha
  calls := h.positions
  planned := h.planned
  idle _ := rfl
  insns := by simp [hidle, EditPlan.apply_empty hproper.distinct]
  placed anchor := by simp [hidle, Draft.ofEdits, EditPlan.insertedBefore, EditPlan.empty]
  moved := by simp [hidle, EditPlan.empty]
  removes := by simp [hidle]
  removed := by simp [EditPlan.empty]

/-- The edits are recorded one after another, and dead look-ups go away as well. -/
theorem Replacement.of_edits {body' : Body} {now : InsnList} {plan : EditPlan}
    (ha : SiteAnalysis.run ctx.method body = .ok a)
    (h : Planning.Decides ctx a body a.reachedCalls decisions (Planning.run ctx a body))
    (hsome : a.edits decisions ≠ []) (hrecording : Recording body.insns (a.edits decisions) now plan)
    (hinsns : body'.insns = now.commit (plan.removeAll
      (a.deadLookups (Planning.run ctx a body).loads (Planning.run ctx a body).spent))) :
    Replacement ctx a body body' decisions (plan.removeAll
      (a.deadLookups (Planning.run ctx a body).loads (Planning.run ctx a body).spent)) where
  analysis := ha
  calls := h.positions
  planned := h.planned
  idle hnone := absurd hnone hsome
  insns := by rw [hinsns, InsnList.commit, hrecording.made]
  placed anchor := by rw [EditPlan.insertedBefore_removeAll, hrecording.placed]
  moved id := by rw [EditPlan.removeAll_moved, hrecording.moved]
  removes e he id hid := by
    rw [EditPlan.contains_removeAll, (hrecording.removed id).mpr ⟨e, he, hid⟩, Bool.true_or]
  removed id hid := by
    rw [EditPlan.contains_removeAll, Bool.or_eq_true, decide_eq_true_eq] at hid
    rcases hid with hid | hid
    · exact .inl ((hrecording.removed id).mp hid)
    · obtain ⟨q, hq, hid, hreal, hreflective, hlookup⟩ := SiteAnalysis.deadLookups_spec hid
      refine .inr ⟨q, hq, hid, hreal, hreflective, hlookup.mono fun n hn => ?_⟩
      rw [EditPlan.contains_removeAll, Bool.or_eq_true, decide_eq_true_eq]
      refine hn.imp_left fun hload => ?_
      obtain ⟨e, he, hremove⟩ := h.load_removed hload
      exact (hrecording.removed n).mpr ⟨e, he, .inr hremove⟩

end Run

/-- The calls of an analysed body are replaced as planned. If anything is edited, dead look-ups go away. -/
theorem Body.replacement_of_run {ctx : MethodContext} {body body' : Body} {a : SiteAnalysis}
    {outcomes : List SiteOutcome} (hproper : body.insns.Proper) (ha : SiteAnalysis.run ctx.method body = .ok a)
    (h : body.replaceInvokes ctx = .ok (body', outcomes)) :
    ∃ decisions plan, Planning.Decides ctx a body a.reachedCalls decisions (Planning.run ctx a body) ∧
      Replacement ctx a body body' decisions plan ∧ outcomes = decisions.map (·.outcome body) ∧
        (a.edits decisions ≠ [] → ∀ id ∈ a.deadLookups (Planning.run ctx a body).loads
          (Planning.run ctx a body).spent, plan.removed.contains id = true) := by
  obtain ⟨decisions, hdecides⟩ := Planning.run_decides ctx a body
  have hedits : (Planning.run ctx a body).edits.reverse = a.edits decisions := hdecides.edits
  refine ⟨decisions, ?_⟩
  unfold replaceInvokes at h
  by_cases hany : body.insns.insns.any (·.isReflectiveInvoke) = true
  · rw [if_neg (by simp [hany]), ha] at h
    simp only [bind, Except.bind] at h
    rw [hedits] at h
    split_ifs at h with hnone
    · have hidle : a.edits decisions = [] := by
        rw [← hedits, List.isEmpty_iff.mp hnone, List.reverse_nil]
      cases h
      exact ⟨.empty, hdecides, .of_idle hproper ha hdecides hidle, hdecides.outcomes, absurd hidle⟩
    · have hsome : a.edits decisions ≠ [] := by
        rw [← hedits, ne_eq, List.reverse_eq_nil_iff]
        simpa using hnone
      have hrecording := recording_foldl body.insns (a.edits decisions)
      cases h
      refine ⟨_, hdecides, .of_edits ha hdecides hsome hrecording rfl, hdecides.outcomes, fun _ id hid => ?_⟩
      rw [EditPlan.contains_removeAll, decide_eq_true hid, Bool.or_true]
  · rw [if_pos (by simp [hany])] at h
    cases h
    have hcalls : a.reachedCalls = [] := by
      refine List.filter_eq_nil_iff.mpr fun p hp => ?_
      have hmem : a.insnAt p ∈ body.insns.insns :=
        list_of_run ha ▸ insnAt_mem (List.mem_range.mp hp)
      rw [Array.any_eq_true'] at hany
      simp only [Bool.and_eq_true, not_and]
      exact fun hreflective => absurd ⟨_, hmem, hreflective⟩ hany
    obtain rfl : decisions = [] := List.map_eq_nil_iff.mp (hdecides.positions.trans hcalls)
    exact ⟨.empty, hdecides, .of_idle hproper ha hdecides rfl, rfl, absurd rfl⟩

/-- Calls are replaced by decisions and a plan, unless there is no call at all. -/
theorem Body.replacement_of_replaceInvokes {ctx : MethodContext} {body body' : Body}
    {outcomes : List SiteOutcome} (hproper : body.insns.Proper)
    (h : body.replaceInvokes ctx = .ok (body', outcomes)) :
    (body' = body ∧ outcomes = [] ∧
        ∀ p < body.insns.size, (body.insns.insnAt p).isReflectiveInvoke = false) ∨
      ∃ a decisions plan, Replacement ctx a body body' decisions plan ∧
        outcomes = decisions.map (·.outcome body) := by
  by_cases hany : body.insns.insns.any (·.isReflectiveInvoke) = true
  · have hrun := h
    unfold replaceInvokes at hrun
    rw [if_neg (by simp [hany])] at hrun
    obtain ⟨a, ha, _⟩ := bind_eq_ok.mp hrun
    obtain ⟨decisions, plan, _, hreplacement, houtcomes, _⟩ := replacement_of_run hproper ha h
    exact .inr ⟨a, decisions, plan, hreplacement, houtcomes⟩
  · unfold replaceInvokes at h
    rw [if_pos (by simp [hany])] at h
    cases h
    refine .inl ⟨rfl, rfl, fun p hp => ?_⟩
    rw [Bool.eq_false_iff]
    intro hreflective
    exact hany (Array.any_eq_true'.mpr ⟨_, insnAt_mem hp, hreflective⟩)

namespace Replacement

variable {ctx : MethodContext} {a : SiteAnalysis} {body body' : Body} {decisions : List Decision}
  {plan : EditPlan}

section Nodes

variable (h : Replacement ctx a body body' decisions plan)

include h

theorem list : a.flow.list = body.insns := Body.list_of_run h.analysis

theorem idAt (p : Nat) : a.idAt p = body.insns.idAt p := by
  rw [← h.list]
  rfl

theorem insnAt (p : Nat) : a.insnAt p = body.insns.insnAt p := by
  rw [← h.list]
  rfl

theorem size : a.flow.size = body.insns.size := by
  rw [← h.list]
  rfl

/-- The edit of a decision carries out its plan. -/
theorem carries_of_edit {d : Decision} (hd : d ∈ decisions) {e : SiteEdit} (he : d.edit? a = some e) :
    ∃ site fresh, d.verdict = .ok (site, fresh) ∧ e = site.edit a fresh ∧ a.Carries site e ∧
      site.position = d.position := by
  unfold Decision.edit? at he
  split at he
  · rename_i site fresh hverdict
    obtain rfl := Option.some.inj he
    obtain ⟨spent, frame, _, hplan⟩ := h.planned d hd site fresh hverdict
    exact ⟨site, fresh, hverdict, rfl, SiteAnalysis.edit_carries hplan fresh,
      (SiteAnalysis.planned_of_plan hplan).call⟩
  · simp at he

theorem site_of_edit {d : Decision} (hd : d ∈ decisions) {e : SiteEdit} (he : d.edit? a = some e) :
    e.site = body.insns.idAt d.position := by
  obtain ⟨site, _, _, _, hcarries, hcall⟩ := h.carries_of_edit hd he
  rw [hcarries.call, hcall, h.idAt]

theorem exists_decision {e : SiteEdit} (he : e ∈ a.edits decisions) :
    ∃ d ∈ decisions, d.edit? a = some e ∧ ∃ site, a.Carries site e ∧ site.position = d.position := by
  obtain ⟨d, hd, hedit⟩ := List.mem_filterMap.mp he
  obtain ⟨site, _, _, _, hcarries, hcall⟩ := h.carries_of_edit hd hedit
  exact ⟨d, hd, hedit, site, hcarries, hcall⟩

theorem call_lt {d : Decision} (hd : d ∈ decisions) :
    d.position < body.insns.size ∧ (body.insns.insnAt d.position).isReflectiveInvoke = true := by
  have hmem : d.position ∈ a.reachedCalls := h.calls ▸ List.mem_map_of_mem hd
  rw [SiteAnalysis.mem_reachedCalls h.analysis] at hmem
  exact ⟨hmem.1, hmem.2.1⟩

/-- Old nodes keep their instruction. -/
theorem get_of_lt {id : NodeId} (hid : id.index < body.insns.nodes.size) :
    body'.insns.get id = body.insns.get id := by
  rw [h.insns, InsnList.get, InsnList.get, Array.getElem?_append_left hid]

/-- New nodes are those of a draft. -/
theorem draft_bounds {d : Draft}
    (hd : d ∈ Draft.ofEdits body.insns.nodes.size (a.edits decisions)) {id : NodeId}
    (hid : id ∈ d.stores ++ d.block) :
    body.insns.nodes.size ≤ id.index ∧ id.index < body'.insns.nodes.size := by
  have hmem : id ∈ (Draft.ofEdits body.insns.nodes.size (a.edits decisions)).flatMap
      fun d => d.stores ++ d.block := List.mem_flatMap.mpr ⟨d, hd, hid⟩
  rw [Draft.ids_ofEdits, NodeId.mem_numbered] at hmem
  rw [h.insns, Array.size_append, List.size_toArray]
  exact hmem

/-- What is placed ahead of a node: code that moves there, the store behind it, or the code of a call
that stands there. -/
theorem placed_cases {anchor id : NodeId} (hid : id ∈ plan.insertedBefore anchor) :
    ∃ d ∈ Draft.ofEdits body.insns.nodes.size (a.edits decisions),
      (∃ ids store, d.edit.move = some (anchor, ids, store) ∧ (id ∈ ids ∨ id ∈ d.stores)) ∨
        anchor = d.edit.site ∧ id ∈ d.block := by
  rw [h.placed] at hid
  obtain ⟨d, hd, hid⟩ := List.mem_flatMap.mp hid
  exact ⟨d, hd, Draft.mem_placed.mp hid⟩

omit h in
theorem mem_edits {d : Draft} (hd : d ∈ Draft.ofEdits body.insns.nodes.size (a.edits decisions)) :
    d.edit ∈ a.edits decisions := by
  have hmem := List.mem_map_of_mem hd (f := (·.edit))
  rwa [Draft.map_edit_ofEdits] at hmem

omit h in
theorem exists_draft_of_edit {e : SiteEdit} (he : e ∈ a.edits decisions) :
    ∃ d ∈ Draft.ofEdits body.insns.nodes.size (a.edits decisions), d.edit = e := by
  rw [← Draft.map_edit_ofEdits body.insns.nodes.size (a.edits decisions)] at he
  exact List.mem_map.mp he

/-- Code moves from between its new place and the call. -/
theorem moved_cases {e : SiteEdit} (he : e ∈ a.edits decisions) {anchor id : NodeId}
    {ids : List NodeId} {store : Insn} (hmove : e.move = some (anchor, ids, store)) (hid : id ∈ ids) :
    ∃ d ∈ decisions, ∃ code receiver q, a.Swaps d.position code receiver ∧ receiver < q ∧
      q < d.position ∧ anchor = body.insns.idAt receiver ∧ id = body.insns.idAt q := by
  obtain ⟨d, hd, _, site, hcarries, hcall⟩ := h.exists_decision he
  obtain ⟨code, receiver, hswaps, rfl, rfl, _⟩ := hcarries.moved anchor ids store hmove
  obtain ⟨q, hq, rfl⟩ := List.mem_map.mp hid
  rw [Span.mem_positions] at hq
  rw [hcall] at hswaps
  have hahead := hswaps.ahead
  have hstop := SiteAnalysis.spanOf_bounds hswaps.array
  exact ⟨d, hd, code, receiver, q, hswaps, by omega, by omega, h.idAt receiver, h.idAt q⟩

theorem anchor_cases {e : SiteEdit} (he : e ∈ a.edits decisions) {anchor : NodeId}
    {ids : List NodeId} {store : Insn} (hmove : e.move = some (anchor, ids, store)) :
    ∃ d ∈ decisions, ∃ code receiver, a.Swaps d.position code receiver ∧ receiver < d.position ∧
      anchor = body.insns.idAt receiver := by
  obtain ⟨d, hd, _, site, hcarries, hcall⟩ := h.exists_decision he
  obtain ⟨code, receiver, hswaps, rfl, _⟩ := hcarries.moved anchor ids store hmove
  rw [hcall] at hswaps
  have hahead := hswaps.ahead
  have hstop := SiteAnalysis.spanOf_bounds hswaps.array
  exact ⟨d, hd, code, receiver, hswaps, by omega, h.idAt receiver⟩

theorem site_eq {e : SiteEdit} (he : e ∈ a.edits decisions) :
    ∃ d ∈ decisions, e.site = body.insns.idAt d.position := by
  obtain ⟨d, hd, hedit, _⟩ := h.exists_decision he
  exact ⟨d, hd, h.site_of_edit hd hedit⟩

/-- A node that is placed ahead of another one stands behind it, or is new. -/
theorem anchor_rank (hproper : body.insns.Proper) {anchor id : NodeId}
    (hid : id ∈ plan.insertedBefore anchor) :
    anchor ∈ body.insns.order ∧ body.insns.rank anchor < body.insns.rank id := by
  obtain ⟨d, hd, hcases⟩ := h.placed_cases hid
  have he := mem_edits hd
  rcases hcases with ⟨ids, store, hmove, hmem | hmem⟩ | ⟨rfl, hmem⟩
  · obtain ⟨c, hc, _, receiver, q, _, hlt, hq, rfl, rfl⟩ := h.moved_cases he hmove hmem
    have hinside := (h.call_lt hc).1
    rw [hproper.rank_idAt (by omega), hproper.rank_idAt (by omega)]
    exact ⟨InsnList.mem_order.mpr ⟨receiver, by omega, rfl⟩, hlt⟩
  · obtain ⟨c, hc, _, receiver, _, hlt, rfl⟩ := h.anchor_cases he hmove
    have hinside := (h.call_lt hc).1
    rw [hproper.rank_idAt (by omega),
      hproper.rank_new (h.draft_bounds hd (List.mem_append_left _ hmem)).1]
    exact ⟨InsnList.mem_order.mpr ⟨receiver, by omega, rfl⟩, by omega⟩
  · obtain ⟨c, hc, hsite⟩ := h.site_eq he
    have hinside := (h.call_lt hc).1
    rw [hsite, hproper.rank_idAt hinside,
      hproper.rank_new (h.draft_bounds hd (List.mem_append_right _ hmem)).1]
    exact ⟨InsnList.mem_order.mpr ⟨_, hinside, rfl⟩, hinside⟩

/-- A node that is not removed is still there. -/
theorem mem_of_kept (hproper : body.insns.Proper) {id : NodeId} (hid : id ∈ body.insns.order)
    (hkept : plan.removed.contains id = false) : id ∈ body'.insns.order := by
  rw [h.insns]
  refine EditPlan.mem_apply_of_not_removed (fun anchor n hn => (h.anchor_rank hproper hn).2)
    (fun n hn => ?_) hid hkept
  obtain ⟨e, he, hmem⟩ := (h.moved n).mp hn
  unfold SiteEdit.movedIds at hmem
  cases hmove : e.move with
  | none => simp [hmove] at hmem
  | some move =>
    obtain ⟨anchor, ids, store⟩ := move
    rw [hmove, Option.map_some, Option.getD_some] at hmem
    obtain ⟨d, hd, rfl⟩ := exists_draft_of_edit he
    have hplaced : n ∈ plan.insertedBefore anchor := by
      rw [h.placed]
      exact List.mem_flatMap.mpr ⟨d, hd, Draft.mem_placed.mpr (.inl ⟨ids, store, hmove, .inl hmem⟩)⟩
    exact ⟨anchor, (h.anchor_rank hproper hplaced).1, hplaced⟩

/-- Only real instructions are removed: the replaced calls, and code of their operands and of dead
look-ups. -/
theorem removed_cases {id : NodeId} (hid : plan.removed.contains id = true) :
    ∃ q < body.insns.size, id = body.insns.idAt q ∧ (body.insns.insnAt q).isReal = true ∧
      ((∃ e ∈ a.edits decisions, id = e.site) ∨ (body.insns.insnAt q).isReflectiveInvoke = false ∧
        ((∃ e ∈ a.edits decisions, ∃ d ∈ decisions, e.site = body.insns.idAt d.position ∧
            a.InOperandCode d.position q) ∨
          a.InDeadLookup (plan.removed.contains · = true) q)) := by
  simp only [← h.idAt, ← h.insnAt, ← h.size]
  rcases h.removed id hid with ⟨e, he, hid⟩ | ⟨q, hq, hid, hreal, hreflective, hlookup⟩
  · obtain ⟨d, hd, _, site, hcarries, hcall⟩ := h.exists_decision he
    have hcalled := h.call_lt hd
    rw [← h.insnAt, ← h.size, ← hcall] at hcalled
    rcases hid with rfl | hid
    · exact ⟨site.position, hcalled.1, hcarries.call, SiteAnalysis.real_of_reflective hcalled.2,
        .inl ⟨e, he, rfl⟩⟩
    · obtain ⟨q, hq, hid, hreal, hreflective, hoperand⟩ := hcarries.removed id hid
      exact ⟨q, by omega, hid, hreal,
        .inr ⟨hreflective, .inl ⟨e, he, d, hd, hcall ▸ hcarries.call, hcall ▸ hoperand⟩⟩⟩
  · exact ⟨q, hq, hid, hreal, .inr ⟨hreflective, .inr hlookup⟩⟩

theorem not_mem_of_removed {id : NodeId} (hid : plan.removed.contains id = true) :
    id ∉ body'.insns.order := by
  intro hmem
  rw [h.insns] at hmem
  have hkept := (EditPlan.mem_apply hmem).2
  rw [hid] at hkept
  exact Bool.noConfusion hkept

theorem label_mem (hproper : body.insns.Proper) {id : NodeId} (hid : id ∈ body.insns.order)
    (hreal : (body.insns.get id).isReal = false) : id ∈ body'.insns.order := by
  refine h.mem_of_kept hproper hid (Bool.eq_false_iff.mpr fun hremoved => ?_)
  obtain ⟨q, _, rfl, hreal', _⟩ := h.removed_cases hremoved
  exact absurd hreal' (ne_true_of_eq_false hreal)

/-- A node in the new order had a place already, or it is a new node of a draft. -/
theorem exists_draft_of_mem {id : NodeId} (hid : id ∈ body'.insns.order) :
    id ∈ body.insns.order ∨
      ∃ d ∈ Draft.ofEdits body.insns.nodes.size (a.edits decisions), id ∈ d.stores ++ d.block := by
  rw [h.insns] at hid
  obtain ⟨hold | ⟨anchor, hplaced⟩, _⟩ := EditPlan.mem_apply hid
  · exact .inl hold
  · obtain ⟨d, hd, ⟨ids, store, hmove, hmem | hmem⟩ | ⟨_, hmem⟩⟩ := h.placed_cases hplaced
    · obtain ⟨c, hc, _, receiver, q, _, _, hq, _, rfl⟩ := h.moved_cases (mem_edits hd) hmove hmem
      have hinside := (h.call_lt hc).1
      exact .inl (InsnList.mem_order.mpr ⟨q, by omega, rfl⟩)
    · exact .inr ⟨d, hd, List.mem_append_left _ hmem⟩
    · exact .inr ⟨d, hd, List.mem_append_right _ hmem⟩

/-- The new list is proper as well. -/
theorem proper (hproper : body.insns.Proper) : body'.insns.Proper := by
  refine ⟨by rw [h.insns]; exact plan.apply_nodup _, fun id hid => ?_⟩
  rcases h.exists_draft_of_mem hid with hold | ⟨d, hd, hmem⟩
  · rw [h.insns, Array.size_append]
    exact Nat.lt_of_lt_of_le (hproper.owned id hold) (Nat.le_add_right _ _)
  · exact (h.draft_bounds hd hmem).2

end Nodes

end Replacement

namespace Body

variable {ctx : MethodContext} {body body' : Body} {outcomes : List SiteOutcome}

/-- Labels and line markers of a body stay in it when its calls are replaced. -/
theorem label_kept (hproper : body.insns.Proper)
    (h : body.replaceInvokes ctx = .ok (body', outcomes)) {id : NodeId}
    (hid : id ∈ body.insns.order) (hreal : (body.insns.get id).isReal = false) :
    id ∈ body'.insns.order ∧ body'.insns.get id = body.insns.get id := by
  rcases replacement_of_replaceInvokes hproper h with ⟨rfl, _⟩ | ⟨a, decisions, plan, h, _⟩
  · exact ⟨hid, rfl⟩
  · exact ⟨h.label_mem hproper hid hreal, h.get_of_lt (hproper.owned id hid)⟩

/-- Replacing calls of `invoke` keeps a proper list proper. -/
theorem replaceInvokes_proper (hproper : body.insns.Proper)
    (h : body.replaceInvokes ctx = .ok (body', outcomes)) : body'.insns.Proper := by
  rcases replacement_of_replaceInvokes hproper h with ⟨rfl, _⟩ | ⟨a, decisions, plan, h, _⟩
  · exact hproper
  · exact h.proper hproper

end Body

end DirectCall
