import DirectCall.Proofs.CallSite.Replacement

/-!
# Where new code stands

The code of a direct call is a block of new nodes in the place of the call (`stands`): what stood ahead
of the call is still ahead of the block, and the rest behind it. Code of other calls may move, but never
past a call. All other new nodes are the stores behind moved code (`mem_order_cases`).
-/

namespace DirectCall

namespace Body

/-- The call of `invoke` at a position is gone. -/
def ReplacedAt (body body' : Body) (p : Nat) : Prop :=
  p < body.insns.size ∧ (body.insns.insnAt p).isReflectiveInvoke = true ∧
    body.insns.idAt p ∉ body'.insns.order

/-- Nodes stand in a row in the place of a position: ahead of them are nodes that were ahead of it, and
behind them nodes that were behind it, new ones apart. -/
def StandsAt (body body' : Body) (p : Nat) (block : List NodeId) : Prop :=
  ∃ before after, body'.insns.order.toList = before ++ block ++ after ∧
    (∀ q < body.insns.size, body.insns.idAt q ∈ before → q < p) ∧
    ∀ q < body.insns.size, body.insns.idAt q ∈ after → p < q

/-- The node was ahead of a position, or it is new and not of a block. -/
def Ahead (body : Body) (p : Nat) (block : List NodeId) (n : NodeId) : Prop :=
  (∃ q < p, n = body.insns.idAt q) ∨ body.insns.nodes.size ≤ n.index ∧ n ∉ block

/-- The node was behind a position, or it is new. -/
def Behind (body : Body) (p : Nat) (n : NodeId) : Prop :=
  (∃ q < body.insns.size, p < q ∧ n = body.insns.idAt q) ∨ body.insns.nodes.size ≤ n.index

end Body

namespace Replacement

variable {ctx : MethodContext} {a : SiteAnalysis} {body body' : Body} {decisions : List Decision}
  {plan : EditPlan} {d : Draft} (h : Replacement ctx a body body' decisions plan)

include h

/-! ## Calls are left alone by the other edits -/

theorem site_reflective {e : SiteEdit} (he : e ∈ a.edits decisions) :
    (body.insns.get e.site).isReflectiveInvoke = true := by
  obtain ⟨c, hc, hsite⟩ := h.site_eq he
  rw [hsite]
  exact (h.call_lt hc).2

/-- No code moves ahead of a call. -/
theorem anchor_not_reflective {e : SiteEdit} (he : e ∈ a.edits decisions) {anchor : NodeId}
    {ids : List NodeId} {store : Insn} (hmove : e.move = some (anchor, ids, store)) :
    (body.insns.get anchor).isReflectiveInvoke = false := by
  obtain ⟨c, _, code, receiver, hswaps, hlt, rfl⟩ := h.anchor_cases he hmove
  have hpure := hswaps.pure receiver le_rfl hlt
  rwa [h.insnAt] at hpure

/-- No call moves. -/
theorem moved_not_reflective {id : NodeId} (hid : plan.moved.contains id = true) :
    (body.insns.get id).isReflectiveInvoke = false := by
  obtain ⟨e, he, hid⟩ := (h.moved id).mp hid
  unfold SiteEdit.movedIds at hid
  cases hmove : e.move with
  | none => simp [hmove] at hid
  | some move =>
    obtain ⟨anchor, ids, store⟩ := move
    rw [hmove, Option.map_some, Option.getD_some] at hid
    obtain ⟨c, _, code, receiver, q, hswaps, hlt, hq, _, rfl⟩ := h.moved_cases he hmove hid
    have hpure := hswaps.pure q hlt.le hq
    rwa [h.insnAt] at hpure

/-- Each call has one edit at most. -/
theorem sites_nodup (hproper : body.insns.Proper) : ((a.edits decisions).map (·.site)).Nodup := by
  have hcalls : decisions.Pairwise fun c c' => c.position < c'.position := by
    have hsorted := a.reachedCalls_sorted
    rwa [← h.calls, List.pairwise_map] at hsorted
  rw [List.Nodup, List.pairwise_map, SiteAnalysis.edits, List.pairwise_filterMap]
  refine hcalls.imp_of_mem fun {c c'} hc hc' hlt e he e' he' heq => ?_
  rw [h.site_of_edit hc he, h.site_of_edit hc' he'] at heq
  have := hproper.idAt_inj (h.call_lt hc).1 (h.call_lt hc').1 heq
  omega

theorem drafts_nodup (hproper : body.insns.Proper) :
    ((Draft.ofEdits body.insns.nodes.size (a.edits decisions)).map (·.edit.site)).Nodup := by
  have hsites := h.sites_nodup hproper
  rwa [← Draft.map_edit_ofEdits body.insns.nodes.size (a.edits decisions), List.map_map] at hsites

/-- A call has its block placed ahead of it, and nothing else. -/
theorem insertedBefore_site (hproper : body.insns.Proper)
    (hd : d ∈ Draft.ofEdits body.insns.nodes.size (a.edits decisions)) :
    plan.insertedBefore d.edit.site = d.block := by
  have hstays : ∀ d' ∈ Draft.ofEdits body.insns.nodes.size (a.edits decisions),
      ∀ target ids store, d'.edit.move = some (target, ids, store) → d.edit.site ≠ target := by
    intro d' hd' target ids store hmove heq
    have hreflective := h.site_reflective (mem_edits hd)
    rw [heq, h.anchor_not_reflective (mem_edits hd') hmove] at hreflective
    exact Bool.false_ne_true hreflective
  have hnodup := h.drafts_nodup hproper
  obtain ⟨front, back, hsplit⟩ := List.append_of_mem hd
  rw [hsplit] at hnodup hstays
  rw [List.map_append, List.map_cons, List.nodup_middle, List.nodup_cons, ← List.map_append] at hnodup
  have hother : ∀ d' ∈ front ++ back, d'.placed d.edit.site = [] := by
    intro d' hd'
    refine Draft.placed_eq_nil (fun heq => ?_) (hstays d' ?_)
    · exact hnodup.1 (heq ▸ List.mem_map_of_mem hd')
    · rcases List.mem_append.mp hd' with hd' | hd' <;> simp [hd']
  have hfront : front.flatMap (·.placed d.edit.site) = [] :=
    List.flatMap_eq_nil_iff.mpr fun d' hd' => hother d' (List.mem_append_left _ hd')
  have hback : back.flatMap (·.placed d.edit.site) = [] :=
    List.flatMap_eq_nil_iff.mpr fun d' hd' => hother d' (List.mem_append_right _ hd')
  rw [h.placed, hsplit, List.flatMap_append, List.flatMap_cons, hfront, hback,
    Draft.placed_site (hstays d (by simp)), List.nil_append, List.append_nil]

/-! ## The block of a call -/

/-- Nothing is placed ahead of a new node, and no new node is removed. -/
theorem new_leaf (hproper : body.insns.Proper) {id : NodeId}
    (hid : body.insns.nodes.size ≤ id.index) :
    plan.insertedBefore id = [] ∧ plan.removed.contains id = false := by
  constructor
  · rw [List.eq_nil_iff_forall_not_mem]
    intro n hn
    have := hproper.owned id (h.anchor_rank hproper hn).1
    omega
  · rw [Bool.eq_false_iff]
    intro hremoved
    obtain ⟨q, hq, rfl, _⟩ := h.removed_cases hremoved
    have := hproper.idAt_lt hq
    omega

/-- Nodes that were ahead of a call keep what is placed ahead of them ahead of it, unless it is of the
block of the call. -/
theorem closed_ahead (hproper : body.insns.Proper)
    (hd : d ∈ Draft.ofEdits body.insns.nodes.size (a.edits decisions)) {p : Nat}
    (hp : p < body.insns.size) (hsite : d.edit.site = body.insns.idAt p) :
    plan.Closed (body.Ahead p d.block) := by
  intro anchor hanchor n hn
  -- A new node has nothing ahead of it.
  obtain ⟨r, hr, rfl⟩ : ∃ r < p, anchor = body.insns.idAt r := by
    refine hanchor.resolve_right fun hnew => ?_
    rw [(h.new_leaf hproper hnew.1).1] at hn
    simp at hn
  obtain ⟨d', hd', ⟨ids, store, hmove, hn | hn⟩ | ⟨hsite', hn⟩⟩ := h.placed_cases hn
  · obtain ⟨c, hc, code, receiver, q, hswaps, hlt, hq, heq, rfl⟩ :=
      h.moved_cases (mem_edits hd') hmove hn
    have hinside := (h.call_lt hc).1
    obtain rfl := hproper.idAt_inj (by omega) (by omega) heq
    refine .inl ⟨q, Nat.lt_of_not_le fun hle => ?_, rfl⟩
    have hpure := hswaps.pure p hr.le (by omega)
    have hreflective := h.site_reflective (mem_edits hd)
    rw [hsite] at hreflective
    rw [h.insnAt] at hpure
    exact Bool.false_ne_true (hpure.symm.trans hreflective)
  · refine .inr ⟨(h.draft_bounds hd' (List.mem_append_left _ hn)).1, fun hblock => ?_⟩
    exact (Draft.eq_of_mem_ids hd hd' hblock (List.mem_append_left _ hn)).2 hn
  · refine .inr ⟨(h.draft_bounds hd' (List.mem_append_right _ hn)).1, fun hblock => ?_⟩
    obtain rfl := (Draft.eq_of_mem_ids hd hd' hblock (List.mem_append_right _ hn)).1
    have := hproper.idAt_inj (by omega) hp (hsite'.trans hsite)
    omega

/-- Nodes that were behind a call keep what is placed ahead of them behind it. -/
theorem closed_behind (hproper : body.insns.Proper) (p : Nat) :
    plan.Closed (body.Behind p) := by
  intro anchor hanchor n hn
  obtain ⟨r, hr, hlt, rfl⟩ : ∃ r < body.insns.size, p < r ∧ anchor = body.insns.idAt r := by
    refine hanchor.resolve_right fun hnew => ?_
    rw [(h.new_leaf hproper hnew).1] at hn
    simp at hn
  obtain ⟨d', hd', ⟨ids, store, hmove, hn | hn⟩ | ⟨_, hn⟩⟩ := h.placed_cases hn
  · obtain ⟨c, hc, _, receiver, q, _, hlt', hq, heq, rfl⟩ := h.moved_cases (mem_edits hd') hmove hn
    have hinside := (h.call_lt hc).1
    obtain rfl := hproper.idAt_inj hr (by omega) heq
    exact .inl ⟨q, by omega, by omega, rfl⟩
  · exact .inr (h.draft_bounds hd' (List.mem_append_left _ hn)).1
  · exact .inr (h.draft_bounds hd' (List.mem_append_right _ hn)).1

/-- Neither the call nor its block is ahead of it. -/
theorem block_not_ahead (hproper : body.insns.Proper)
    (hd : d ∈ Draft.ofEdits body.insns.nodes.size (a.edits decisions)) {p : Nat}
    (hp : p < body.insns.size) : ∀ n ∈ d.block ++ [body.insns.idAt p], ¬ body.Ahead p d.block n := by
  intro n hn hahead
  rcases List.mem_append.mp hn with hn | hn
  · rcases hahead with ⟨q, hq, rfl⟩ | ⟨_, hout⟩
    · have hnew := (h.draft_bounds hd (List.mem_append_right _ hn)).1
      have hold := hproper.idAt_lt (hq.trans hp)
      omega
    · exact hout hn
  · obtain rfl := List.mem_singleton.mp hn
    rcases hahead with ⟨q, hq, heq⟩ | ⟨hnew, _⟩
    · have := hproper.idAt_inj hp (hq.trans hp) heq
      omega
    · have hold := hproper.idAt_lt hp
      omega

theorem site_stays (hd : d ∈ Draft.ofEdits body.insns.nodes.size (a.edits decisions)) :
    plan.moved.contains d.edit.site = false := by
  rw [Bool.eq_false_iff]
  intro hmoved
  have hreflective := h.site_reflective (mem_edits hd)
  rw [h.moved_not_reflective hmoved] at hreflective
  exact Bool.false_ne_true hreflective

/-- The block of a call stands in its place. -/
theorem stands (hproper : body.insns.Proper)
    (hd : d ∈ Draft.ofEdits body.insns.nodes.size (a.edits decisions)) {p : Nat}
    (hp : p < body.insns.size) (hsite : d.edit.site = body.insns.idAt p) :
    body.StandsAt body' p d.block := by
  obtain ⟨ahead, behind, horder, hahead, hbehind⟩ := InsnList.order_split hp
  have hplaced := h.insertedBefore_site hproper hd
  have hstays := h.site_stays hd
  have hremoved := h.removes d.edit (mem_edits hd) _ (.inl rfl)
  rw [hsite] at hplaced hstays hremoved
  have hnew : ∀ n ∈ d.block, body.insns.nodes.size ≤ n.index :=
    fun n hn => (h.draft_bounds hd (List.mem_append_right _ hn)).1
  have hold : ∀ {q}, q < body.insns.size → ¬ body.insns.nodes.size ≤ (body.insns.idAt q).index :=
    fun hq => not_le.mpr (hproper.idAt_lt hq)
  have hnodup : (d.block ++ [body.insns.idAt p]).Nodup := by
    rw [← List.concat_eq_append]
    exact (NodeId.nodup_numbered _ _).concat fun hmem => hold hp (hnew _ hmem)
  obtain ⟨before, after, hlist, hbefore, hafter⟩ := EditPlan.apply_block horder hremoved hstays
    (h.closed_ahead hproper hd hp hsite) (h.closed_behind hproper p)
    (fun n hn => .inl (hahead n hn)) (fun n hn => .inl (hbehind n hn)) (hplaced ▸ hnodup)
    (hplaced ▸ h.block_not_ahead hproper hd hp)
    (fun n hn => h.new_leaf hproper (hnew n (hplaced ▸ hn)))
  rw [hplaced] at hlist
  refine ⟨before, after, by rw [h.insns]; exact hlist, fun q hq hmem => ?_, fun q hq hmem => ?_⟩
  · obtain ⟨r, hr, heq⟩ := (hbefore _ hmem).resolve_right fun hnew => hold hq hnew.1
    have := hproper.idAt_inj hq (by omega) heq
    omega
  · obtain ⟨r, hr, hlt, heq⟩ := (hafter _ hmem).resolve_right (hold hq)
    have := hproper.idAt_inj hq hr heq
    omega

/-! ## The instructions of new nodes -/

/-- Where the nodes of a draft are, and which instructions they stand for. -/
theorem map_get (hd : d ∈ Draft.ofEdits body.insns.nodes.size (a.edits decisions)) :
    d.stores.map body'.insns.get = d.edit.stores ∧ d.block.map body'.insns.get = d.edit.atSite := by
  obtain ⟨before, after, hmade, hstart⟩ := Draft.made_ofEdits hd
  have hnodes : body'.insns.nodes.toList = (body.insns.nodes.toList ++ before) ++
      (d.edit.stores ++ (d.edit.atSite ++ after)) := by
    rw [h.insns, hmade]
    simp [SiteEdit.made]
  have hlength : (body.insns.nodes.toList ++ before).length = d.start := by
    rw [List.length_append, Array.length_toList, hstart]
  have hstores := InsnList.map_get_numbered hnodes
  rw [← List.append_assoc] at hnodes
  have hblock := InsnList.map_get_numbered hnodes
  rw [List.length_append, hlength] at hblock
  rw [hlength] at hstores
  exact ⟨hstores, hblock⟩

/-- A node in the new order had a place already, or it is a store behind moved code, or it is in the
block of a call. -/
theorem mem_order_cases {id : NodeId} (hid : id ∈ body'.insns.order) :
    id ∈ body.insns.order ∨ (∃ var, body'.insns.get id = .var Opcode.astore var) ∨
      ∃ d ∈ Draft.ofEdits body.insns.nodes.size (a.edits decisions), id ∈ d.block := by
  refine (h.exists_draft_of_mem hid).imp_right ?_
  rintro ⟨d, hd, hid⟩
  rcases List.mem_append.mp hid with hid | hid
  · have hget := List.mem_map_of_mem hid (f := body'.insns.get)
    rw [(h.map_get hd).1, SiteEdit.stores] at hget
    cases hmove : d.edit.move with
    | none => simp [hmove] at hget
    | some move =>
      obtain ⟨_, _, _, site, hcarries, _⟩ := h.exists_decision (mem_edits hd)
      obtain ⟨code, receiver, _, _, _, var, hstore⟩ := hcarries.moved _ _ _ hmove
      exact .inl ⟨var, by simpa [hmove, hstore] using hget⟩
  · exact .inr ⟨d, hd, hid⟩

/-- Each instruction of the code at a call stands in the new order, on a new node of the block. -/
theorem exists_new (hproper : body.insns.Proper)
    (hd : d ∈ Draft.ofEdits body.insns.nodes.size (a.edits decisions)) {insn : Insn}
    (hinsn : insn ∈ d.edit.atSite) :
    ∃ id ∈ body'.insns.order, id ∉ body.insns.order ∧ id ∈ d.block ∧ body'.insns.get id = insn := by
  obtain ⟨c, hc, hsite⟩ := h.site_eq (mem_edits hd)
  obtain ⟨before, after, horder, _⟩ := h.stands hproper hd (h.call_lt hc).1 hsite
  rw [← (h.map_get hd).2] at hinsn
  obtain ⟨id, hid, rfl⟩ := List.mem_map.mp hinsn
  have hmem : id ∈ body'.insns.order.toList := by
    rw [horder]
    exact List.mem_append_left _ (List.mem_append_right _ hid)
  refine ⟨id, Array.mem_toList_iff.mp hmem, fun hold => ?_, hid, rfl⟩
  have hlt := hproper.owned id hold
  have hle := (h.draft_bounds hd (List.mem_append_right _ hid)).1
  omega

/-! ## Which calls are gone -/

/-- A call is gone exactly if it has an edit. -/
theorem gone_iff (hproper : body.insns.Proper) {p : Nat} (hp : p < body.insns.size)
    (hreflective : (body.insns.insnAt p).isReflectiveInvoke = true) :
    body.insns.idAt p ∉ body'.insns.order ↔
      ∃ e ∈ a.edits decisions, e.site = body.insns.idAt p := by
  constructor
  · intro hgone
    by_contra hnone
    have hmem : body.insns.idAt p ∈ body.insns.order := InsnList.mem_order.mpr ⟨p, hp, rfl⟩
    refine hgone (h.mem_of_kept hproper hmem ?_)
    rw [Bool.eq_false_iff]
    intro hremoved
    obtain ⟨q, hq, heq, _, ⟨e, he, hsite⟩ | ⟨hother, _⟩⟩ := h.removed_cases hremoved
    · exact hnone ⟨e, he, hsite.symm⟩
    · obtain rfl := hproper.idAt_inj hp hq heq
      exact Bool.false_ne_true (hother.symm.trans hreflective)
  · rintro ⟨e, he, hsite⟩
    exact h.not_mem_of_removed (h.removes e he _ (.inl hsite.symm))

/-- A replaced call has an edit. -/
theorem exists_draft (hproper : body.insns.Proper) {p : Nat} (hp : body.ReplacedAt body' p) :
    ∃ c ∈ decisions, c.position = p ∧
      ∃ d ∈ Draft.ofEdits body.insns.nodes.size (a.edits decisions), c.edit? a = some d.edit := by
  obtain ⟨hinside, hreflective, hgone⟩ := hp
  obtain ⟨e, he, hsite⟩ := (h.gone_iff hproper hinside hreflective).mp hgone
  obtain ⟨c, hc, hedit⟩ := List.mem_filterMap.mp he
  have hposition : c.position = p := by
    rw [h.site_of_edit hc hedit] at hsite
    exact hproper.idAt_inj (h.call_lt hc).1 hinside hsite
  obtain ⟨d, hd, rfl⟩ := exists_draft_of_edit he
  exact ⟨c, hc, hposition, d, hd, hedit⟩

end Replacement

/-- Where a call could be replaced, a call is replaced. -/
theorem Body.exists_replacedAt {ctx : MethodContext} {body body' : Body} {outcomes : List SiteOutcome}
    (hproper : body.insns.Proper) (h : body.replaceInvokes ctx = .ok (body', outcomes))
    (hsome : body.HasReplaceable ctx) : ∃ p, body.ReplacedAt body' p := by
  obtain ⟨o, ho, htransformed⟩ : ∃ o ∈ outcomes, o.isTransformed = true := by
    rcases replaceInvokes_cases h with ⟨hnone, _⟩ | ⟨_, hreplaces⟩
    · exact absurd hsome hnone
    · exact hreplaces
  rcases replacement_of_replaceInvokes hproper h with ⟨_, rfl, _⟩ | ⟨a, decisions, plan, hplan, rfl⟩
  · simp at ho
  · obtain ⟨c, hc, rfl⟩ := List.mem_map.mp ho
    rw [Decision.isTransformed_outcome body a] at htransformed
    obtain ⟨e, he⟩ := Option.isSome_iff_exists.mp htransformed
    obtain ⟨hinside, hreflective⟩ := hplan.call_lt hc
    refine ⟨c.position, hinside, hreflective,
      (hplan.gone_iff hproper hinside hreflective).mpr ⟨e, ?_, ?_⟩⟩
    · exact List.mem_filterMap.mpr ⟨c, hc, he⟩
    · exact hplan.site_of_edit hc he

end DirectCall
