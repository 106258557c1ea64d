import DirectCall.Proofs.CallSite.HandlerSteps
import DirectCall.Proofs.Flow.Thinned

/-!
# Handler pruning spares what is live

A run that succeeds keeps every region that may still catch something, and every instruction that
control gets to without the others (`pruneHandlers_spares`). What a removed region spans, and which
regions it is joint with, is a matter of the body that the run started from; each step takes it from
there to the body at hand, since a part of a list keeps the order of its nodes. Lists are proper here, as
they are in a body that was read (`Body.decode_proper`) and behind every edit of it.
-/

namespace DirectCall

namespace InsnList

/-- The node stands in the range of the region. -/
def Guards (list : InsnList) (r : Region) (id : NodeId) : Prop := ∃ p, list.Spans r p ∧ list.idAt p = id

theorem PartOf.guards {a b : InsnList} (h : b.PartOf a) (ha : a.Proper) {r : Region} {id : NodeId}
    (hstart : r.start ∈ b.order) (hstop : r.stop ∈ b.order) (hid : id ∈ b.order)
    (hguards : a.Guards r id) : b.Guards r id := by
  have hb := h.proper ha
  obtain ⟨p, hspans, rfl⟩ := hguards
  have hp := hspans.lt
  obtain ⟨start, stop, hfound, hfound', hle, hlt⟩ := hspans
  obtain ⟨_, rfl⟩ := ha.find?_eq_some.mp hfound
  obtain ⟨_, rfl⟩ := ha.find?_eq_some.mp hfound'
  rw [← ha.rank_idAt hp] at hle hlt
  exact ⟨b.rank (a.idAt p), ⟨_, _, hb.find?_eq_some.mpr ⟨hstart, rfl⟩, hb.find?_eq_some.mpr ⟨hstop, rfl⟩,
    (h.rank_le_iff ha hstart hid).mpr hle, (h.rank_lt_iff ha hid hstop).mpr hlt⟩, (hb.rank_lt hid).2⟩

end InsnList

namespace Body

variable {h : Hierarchy} {a b c : Body}

/-! ## Regions -/

/-- A real instruction that the region covers in one body still has a place in another. -/
structure Survives (a b : Body) (r : Region) (id : NodeId) : Prop where
  guarded : a.insns.Guards r id
  placed : id ∈ b.insns.order
  isReal : (a.insns.get id).isReal = true

/-- No instruction that the region covers is left. -/
def Uncovered (a b : Body) (r : Region) : Prop := ∀ id, ¬ a.Survives b r id

/-- The region catches a reflective failure which no instruction that it covers may raise any more, and
its handler catches nothing else over the same range. -/
def Superfluous (h : Hierarchy) (a b : Body) (r : Region) : Prop :=
  ∃ kind ∈ reflectiveFailures, r.catchType = some kind ∧
    (∀ s ∈ a.regions, s.handler = r.handler → s.start = r.start → s.stop = r.stop →
      s.catchType = some kind) ∧
    ∀ id, a.Survives b r id → (a.insns.get id).mayThrow h kind = false

/-- Only regions that cover nothing any more or are superfluous have gone. -/
structure Relieves (h : Hierarchy) (a b : Body) : Prop where
  part : b.insns.PartOf a.insns
  regions : ∃ stays : Region → Bool, b.regions = a.regions.filter stays
  gone : ∀ r ∈ a.regions, r ∉ b.regions → a.Uncovered b r ∨ Superfluous h a b r

theorem Survives.of_part (hpart : c.insns.PartOf b.insns) {r : Region} {id : NodeId}
    (hid : a.Survives c r id) : a.Survives b r id :=
  ⟨hid.guarded, hpart.mem hid.placed, hid.isReal⟩

/-- What is gone from a body is gone from its parts. -/
theorem gone_of_part (hpart : c.insns.PartOf b.insns) {r : Region}
    (hgone : a.Uncovered b r ∨ Superfluous h a b r) : a.Uncovered c r ∨ Superfluous h a c r := by
  rcases hgone with hnone | ⟨kind, hfails, hcatch, halone, hquiet⟩
  · exact .inl fun id hid => hnone id (hid.of_part hpart)
  · exact .inr ⟨kind, hfails, hcatch, halone, fun id hid => hquiet id (hid.of_part hpart)⟩

namespace Relieves

theorem refl (h : Hierarchy) (a : Body) : Relieves h a a :=
  ⟨.refl _, ⟨fun _ => true, (List.filter_true _).symm⟩, fun _ hr hout => absurd hr hout⟩

/-- A step that leaves a part, and takes only regions for a reason. -/
theorem step (hab : Relieves h a b) (hpart : c.insns.PartOf b.insns) {stays : Region → Bool}
    (hregions : c.regions = b.regions.filter stays)
    (hgone : ∀ r ∈ b.regions, r ∉ c.regions → a.Uncovered c r ∨ Superfluous h a c r) :
    Relieves h a c := by
  obtain ⟨stays', hregions'⟩ := hab.regions
  refine ⟨hpart.trans hab.part, ⟨fun r => stays' r && stays r, ?_⟩, fun r hr hout => ?_⟩
  · rw [hregions, hregions', List.filter_filter]
    exact List.filter_congr fun _ _ => Bool.and_comm _ _
  · by_cases hmem : r ∈ b.regions
    · exact hgone r hmem hout
    · exact gone_of_part hpart (hab.gone r hr hmem)

theorem drop (ha : a.insns.Proper) (hab : Relieves h a b) (hdrop : b.dropEmptyRegions = .ok c) :
    Relieves h a c := by
  have hmem : ∀ r, r ∈ c.regions ↔ _ := fun r => mem_dropEmptyRegions hdrop
  obtain ⟨hasked, rfl⟩ := dropEmptyRegions_eq_ok.mp hdrop
  refine hab.step (.refl _) rfl fun r hr hout => .inl fun id hid => hout ?_
  have hb := hab.part.proper ha
  obtain ⟨covered, hcovered⟩ := hasked r hr
  obtain ⟨⟨start, stop, hstart, hstop⟩, hiff⟩ := covers_eq_ok.mp hcovered
  obtain ⟨p, hspans, hidAt⟩ := hab.part.guards ha (hb.find?_eq_some.mp hstart).1
    (hb.find?_eq_some.mp hstop).1 hid.placed hid.guarded
  have hreal : (b.insns.insnAt p).isReal = true := by
    rw [InsnList.insnAt, hidAt, hab.part.get]
    exact hid.isReal
  obtain rfl : covered = true := hiff.mpr ⟨p, hspans, hreal⟩
  exact (hmem r).mpr ⟨hr, hcovered⟩

theorem forget (ha : a.insns.Proper) (hab : Relieves h a b) {g : HandlerGroup}
    (hfails : g.2 ∈ reflectiveFailures) (hprunable : b.isPrunable h b.insns.positions g = true) :
    Relieves h a (b.forget g) := by
  have hb := hab.part.proper ha
  obtain ⟨hsingle, hquiet⟩ := isPrunable_iff.mp hprunable
  refine hab.step (.refl _) rfl fun r hr hout => ?_
  have hgroup : inGroup g r = true := by
    by_contra hother
    exact hout (mem_forget.mpr ⟨hr, Bool.eq_false_iff.mpr hother⟩)
  obtain ⟨hhandler, hcatch⟩ := inGroup_iff.mp hgroup
  have ha' : r ∈ a.regions := by
    obtain ⟨stays, hregions⟩ := hab.regions
    exact (List.mem_filter.mp (hregions ▸ hr)).1
  obtain ⟨⟨start, stop, hstart, hstop⟩, hthrow⟩ := isQuiet_iff.mp (hquiet r hr hgroup)
  have hsilent : ∀ id, a.Survives (b.forget g) r id → (a.insns.get id).mayThrow h g.2 = false := by
    intro id hid
    obtain ⟨p, hspans, hidAt⟩ := hab.part.guards ha (hb.find?_eq_some.mp hstart).1
      (hb.find?_eq_some.mp hstop).1 hid.placed hid.guarded
    rw [← hab.part.get, ← hidAt]
    exact hthrow p hspans
  by_cases hother : ∃ s ∈ a.regions, s.handler = r.handler ∧ s.start = r.start ∧ s.stop = r.stop ∧
      s.catchType ≠ some g.2
  · -- Another region of the range made the group joint, so it went before, and not as superfluous.
    obtain ⟨s, hs, hshandler, hsstart, hsstop, hscatch⟩ := hother
    have hsgone : s ∉ b.regions := by
      intro hs'
      have hjoint : b.isJoint g = true := isJoint_iff.mpr
        ⟨s, hs', hshandler.trans hhandler, hscatch, r, hr, hgroup, hsstart.symm, hsstop.symm⟩
      rw [hsingle] at hjoint
      cases hjoint
    rcases hab.gone s hs hsgone with hnone | ⟨kind, _, hskind, halone, _⟩
    · refine .inl fun id hid => hnone id ⟨?_, hid.placed, hid.isReal⟩
      obtain ⟨p, ⟨start, stop, hstart, hstop, hrange⟩, hidAt⟩ := hid.guarded
      exact ⟨p, ⟨start, stop, hsstart ▸ hstart, hsstop ▸ hstop, hrange⟩, hidAt⟩
    · have hkind := halone r ha' hshandler.symm hsstart.symm hsstop.symm
      exact absurd (hskind.trans (hkind.symm.trans hcatch)) hscatch
  · refine .inr ⟨g.2, hfails, hcatch, fun s hs hshandler hsstart hsstop => ?_, hsilent⟩
    by_contra hscatch
    exact hother ⟨s, hs, hshandler, hsstart, hsstop, hscatch⟩

theorem sweep (ha : a.insns.Proper) (hab : Relieves h a b) (dead : List NodeId) :
    Relieves h a (b.sweep dead) :=
  hab.step (InsnList.partOf_commit_removeAll (hab.part.proper ha) dead) (List.filter_true _).symm
    fun _ hr hout => absurd hr hout

theorem handlerStep (ha : a.insns.Proper) (hab : Relieves h a b) (hstep : HandlerStep h b c) :
    Relieves h a c := by
  cases hstep with
  | forget hfails hprunable => exact hab.forget ha hfails hprunable
  | prune hstep =>
    cases hstep with
    | drop hdrop => exact hab.drop ha hdrop
    | sweep _ _ => exact hab.sweep ha _

end Relieves

theorem relieves_of_steps (ha : a.insns.Proper) (hsteps : Relation.ReflTransGen (HandlerStep h) a b) :
    Relieves h a b := by
  induction hsteps with
  | refl => exact .refl h a
  | tail _ hstep ih => exact ih.handlerStep ha hstep

/-! ## Instructions -/

/-- With the regions that a step leaves, control gets to no less behind it. -/
theorem getsTo_of_step (hstep : HandlerStep h a b) (ha : a.insns.Proper) {R : List Region}
    (hsub : R ⊆ b.regions) {f e : Flow} (hf : Flow.ofBody { a with regions := R } = .ok f)
    (he : Flow.ofBody { b with regions := R } = .ok e) {id : NodeId} (hid : f.GetsTo id) : e.GetsTo id := by
  cases hstep with
  | forget _ _ => exact Except.ok.inj (hf.symm.trans he) ▸ hid
  | prune hstep =>
    cases hstep with
    | drop hdrop =>
      obtain ⟨_, rfl⟩ := dropEmptyRegions_eq_ok.mp hdrop
      exact Except.ok.inj (hf.symm.trans he) ▸ hid
    | @sweep dead hdead _ =>
      have hthins : Flow.Thins { a with regions := R } { a.sweep dead with regions := R } f := by
        refine ⟨ha, InsnList.partOf_commit_removeAll ha dead, hf, fun n hn => ?_, fun _ => true,
          (List.filter_true _).symm, fun _ _ hout => absurd hout.symm Bool.false_ne_true⟩
        exact (InsnList.mem_order_commit_removeAll ha).mpr
          ⟨hn.mem_order hf, not_dead_of_getsTo hdead ha hsub hf hn⟩
      exact hthins.getsTo he hid

/-- With the regions that a run leaves, control gets to no less behind it. -/
theorem getsTo_of_steps (hsteps : Relation.ReflTransGen (HandlerStep h) a b) (ha : a.insns.Proper)
    {f e : Flow} (hf : Flow.ofBody { a with regions := b.regions } = .ok f) (he : Flow.ofBody b = .ok e)
    {id : NodeId} (hid : f.GetsTo id) : e.GetsTo id := by
  induction hsteps using Relation.ReflTransGen.head_induction_on generalizing f with
  | refl => exact Except.ok.inj (hf.symm.trans he) ▸ hid
  | @head a c hstep hrest ih =>
    have hc := ((Relieves.refl h a).handlerStep ha hstep).part.proper ha
    have hafter := relieves_of_steps hc hrest
    have hplaces : ∀ r ∈ b.regions, c.insns.Places r := fun r hr =>
      ((Flow.exists_ofBody_iff (hafter.part.proper hc)).mp ⟨e, he⟩ r hr).of_part hafter.part
    obtain ⟨f', hf'⟩ := Flow.exists_ofBody_of_places hc hplaces
    obtain ⟨stays, hregions⟩ := hafter.regions
    have hsub : b.regions ⊆ c.regions := hregions ▸ List.filter_subset_self _
    exact ih hc hf' (getsTo_of_step hstep ha hsub hf hf' hid)

/-- Handler pruning that succeeds takes a region only if no instruction that it covers is left, or if it
catches a reflective failure that no instruction which it covers and which is left may raise, and its
handler catches nothing else over the same range. The other regions keep their order. It takes an
instruction only if control does not get there from the entry without the regions taken. -/
theorem pruneHandlers_spares {body pruned : Body} {removed : Nat} (hproper : body.insns.Proper)
    (hrun : body.pruneHandlers h = .ok (pruned, removed)) :
    (∀ r ∈ body.regions, r ∉ pruned.regions → body.Uncovered pruned r ∨ Superfluous h body pruned r) ∧
      pruned.regions = body.regions.filter (fun r => decide (r ∈ pruned.regions)) ∧
      ∀ id ∈ body.insns.order, id ∉ pruned.insns.order →
        ∃ f, Flow.ofBody { body with regions := pruned.regions } = .ok f ∧ ¬ f.GetsTo id := by
  obtain ⟨hsteps, hclean⟩ := pruneHandlers_steps hrun
  have hrelieves := relieves_of_steps hproper hsteps
  refine ⟨hrelieves.gone, ?_, fun id hid hout => ?_⟩
  · obtain ⟨stays, hregions⟩ := hrelieves.regions
    conv_lhs => rw [hregions]
    refine List.filter_congr fun r hr => ?_
    rw [Bool.eq_iff_iff, decide_eq_true_iff, hregions, List.mem_filter]
    exact ⟨fun hstays => ⟨hr, hstays⟩, And.right⟩
  · rcases hclean with rfl | hclean
    · exact absurd hid hout
    · obtain ⟨g, e, _, he, _⟩ := unreachable_spec hclean.live
      have hplaces : ∀ r ∈ pruned.regions, body.insns.Places r := fun r hr =>
        ((Flow.exists_ofBody_iff (hrelieves.part.proper hproper)).mp ⟨e, he⟩ r hr).of_part hrelieves.part
      obtain ⟨f, hf⟩ := Flow.exists_ofBody_of_places hproper hplaces
      exact ⟨f, hf, fun hgets => hout ((getsTo_of_steps hsteps hproper hf he hgets).mem_order he)⟩

/-! ## A dead handler -/

/-- A handler over code that raises nothing. -/
def quietCatch : Body where
  insns := .ofInsns #[.label, .op Opcode.nop, .label, .op Opcode.returnVoid, .label, .op Opcode.pop,
    .op Opcode.returnVoid]
  regions := [⟨⟨0⟩, ⟨2⟩, ⟨4⟩, some "java/lang/NoSuchMethodException"⟩]
  locals := []
  maxStack := 1
  maxLocals := 0

/-- Neither the region is left nor the code of the handler. -/
def quietRest : Body :=
  { quietCatch with
    insns := { quietCatch.insns with order := #[⟨0⟩, ⟨1⟩, ⟨2⟩, ⟨3⟩, ⟨4⟩] }
    regions := [] }

theorem quietCatch_proper : quietCatch.insns.Proper := InsnList.ofInsns_proper _

theorem quietCatch_dead :
    (quietCatch.forget (⟨4⟩, "java/lang/NoSuchMethodException")).unreachable = .ok [⟨5⟩, ⟨6⟩] := by
  have hgraph : (BlockGraph.ofBody (quietCatch.forget (⟨4⟩, "java/lang/NoSuchMethodException"))).toOption =
      some ⟨[⟨0, 4⟩, ⟨4, 7⟩], []⟩ := by decide +kernel
  exact unreachable_of_reachWithin 10 (ok_of_toOption hgraph) rfl rfl (by decide +kernel)

theorem quietRest_live : quietRest.unreachable = .ok [] := by
  have hgraph : (BlockGraph.ofBody quietRest).toOption = some ⟨[⟨0, 4⟩, ⟨4, 5⟩], []⟩ := by decide +kernel
  exact unreachable_of_reachWithin 10 (ok_of_toOption hgraph) rfl rfl (by decide +kernel)

theorem pruneHandlers_quietCatch : quietCatch.pruneHandlers (.freeze ∅) = .ok (quietRest, 1) := by
  have hfirst : quietCatch.nextPrunable (.freeze ∅) quietCatch.insns.positions []
      (quietCatch.regions.filterMap group?) = (some (⟨4⟩, "java/lang/NoSuchMethodException"), []) := by
    decide +kernel
  have horder : (quietCatch.insns.order.toList.filter fun id =>
      !decide (id ∈ [(⟨5⟩ : NodeId), ⟨6⟩])).toArray = quietRest.insns.order := by decide +kernel
  have hinsns : quietCatch.insns.commit (EditPlan.empty.removeAll [⟨5⟩, ⟨6⟩]) = quietRest.insns :=
    (InsnList.commit_removeAll_eq quietCatch_proper [⟨5⟩, ⟨6⟩]).trans
      (congrArg (InsnList.mk quietCatch.insns.nodes) horder)
  have hsweep : (quietCatch.forget (⟨4⟩, "java/lang/NoSuchMethodException")).sweep [⟨5⟩, ⟨6⟩] =
      quietRest :=
    congrArg (fun insns => { quietRest with insns := insns }) hinsns
  have hrest : quietRest.dropEmptyRegions = .ok quietRest := rfl
  have hprune : (quietCatch.forget (⟨4⟩, "java/lang/NoSuchMethodException")).pruneUnreachable =
      .ok (quietRest, 2) := by
    have hcount : (quietCatch.forget (⟨4⟩, "java/lang/NoSuchMethodException")).realCount = 4 := by
      decide +kernel
    rw [pruneUnreachable, hcount, pruneRounds_of_dead rfl quietCatch_dead (by simp), hsweep]
    exact pruneRounds_of_live hrest quietRest_live
  rw [pruneHandlers, pruneHandlersFrom_of_some hfirst hprune]
  exact pruneHandlersFrom_of_none rfl

theorem pruneHandlers_spares_quiet : quietCatch.insns.Proper ∧
    quietCatch.pruneHandlers (.freeze ∅) = .ok (quietRest, 1) ∧
      (∀ r ∈ quietCatch.regions, r ∉ quietRest.regions →
        quietCatch.Uncovered quietRest r ∨ Superfluous (.freeze ∅) quietCatch quietRest r) ∧
      quietRest.regions = quietCatch.regions.filter (fun r => decide (r ∈ quietRest.regions)) ∧
      ∀ id ∈ quietCatch.insns.order, id ∉ quietRest.insns.order →
        ∃ f, Flow.ofBody { quietCatch with regions := quietRest.regions } = .ok f ∧ ¬ f.GetsTo id :=
  ⟨quietCatch_proper, pruneHandlers_quietCatch,
    pruneHandlers_spares quietCatch_proper pruneHandlers_quietCatch⟩

end Body

end DirectCall
