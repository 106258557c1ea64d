import DirectCall.Proofs.CallSite.CleanCut
import DirectCall.Proofs.CallSite.Repeat
import DirectCall.Proofs.CallSite.Replacement
import DirectCall.Proofs.Constants.Rank

/-!
# Bodies whose calls were replaced

All labels stay in the body, but what is left of it need not be executable: the code of a method object
goes away although an instruction behind it may still work on the object. The new body can be analysed
exactly if it fits (`replaced_executable_iff`), that is, if no instruction that is left misses an operand
or a local, control can always go on, and stacks that meet are of one height.

If the cut is clean, it does (`Body.executable_of_cleanCut`): each position has its stages in the new body, those of
the instruction that stays with the code that moves ahead of it, those of the code at a call, or none at all
(`Replacement.unitAt`).
-/

namespace DirectCall

/-- Every label of a body stays in it when calls are replaced, and the new body can be analysed exactly
if it fits. -/
theorem replaced_executable_iff {ctx : MethodContext} {body body' : Body}
    {frames : Frame.Frames ConstantValue} {outcomes : List SiteOutcome} (hproper : body.insns.Proper)
    (hframes : constantFrames ctx.method body = .ok frames)
    (hreplace : body.replaceInvokes ctx = .ok (body', outcomes)) :
    (∀ id ∈ body.insns.order, body.insns.get id = .label →
        id ∈ body'.insns.order ∧ body'.insns.get id = .label) ∧
      ((∃ frames', constantFrames ctx.method body' = .ok frames') ↔
        Frame.Fits ConstantValue.domain ctx.method body') := by
  constructor
  · intro id hid hlabel
    obtain ⟨hmem, hget⟩ := Body.label_kept hproper hreplace hid (by simp [hlabel, Insn.isReal])
    exact ⟨hmem, hget.trans hlabel⟩
  · obtain ⟨_, entry, _, hentry, _⟩ := Frame.analyze_closed (Frame.Progress.joinBounds_true _) hframes
    obtain ⟨entry', hentry'⟩ := Frame.entry_total hentry body'.maxLocals
    exact Frame.analyze_ok_iff ConstantValue.ranked hentry'

/-! ## A method object that is duplicated

The copy is popped at once, so the stack behind the look-up is the one ahead of the call. The look-up
goes away, and the duplication stays. -/

def copiedBody : Body where
  insns := InsnList.ofInsns #[
    .load (.classRef "a/A"), .load (.string "g"), .op Opcode.iconst0,
    .ofClass Opcode.anewarray "java/lang/Class", lookupCall, .op Opcode.dup, .op Opcode.pop,
    .op Opcode.aconstNull, .op Opcode.iconst0, .ofClass Opcode.anewarray "java/lang/Object", invokeCall,
    .op Opcode.pop, .op Opcode.returnVoid]
  regions := []
  locals := []
  maxStack := 4
  maxLocals := 0

/-- The body after its call was replaced; it starts with the duplication. -/
def copiedOnce : Body :=
  { copiedBody with
    insns := ⟨copiedBody.insns.nodes ++ #[.op Opcode.pop,
        .call Opcode.invokestatic ⟨"a/A", "g", "()V"⟩ false, .op Opcode.aconstNull],
      (#[5, 6, 7, 13, 14, 15, 11, 12] : Array Nat).map NodeId.mk⟩ }

def copiedAnalysis : SiteAnalysis :=
  (SiteAnalysis.run calleeContext.method copiedBody).toOption.get (by decide +kernel)

theorem copiedAnalysis_run :
    SiteAnalysis.run calleeContext.method copiedBody = .ok copiedAnalysis :=
  eq_ok_get _

def copiedFrame : Frame ConstantValue :=
  ⟨#[], [.array none "java/lang/Object" 0 [], .unknown .single, .method ⟨⟨4⟩, "a/A", "g", [], false⟩]⟩

def copiedSite : PlannedSite :=
  ⟨10, Candidate.resolved ⟨calleeClass, calleeG⟩, ⟨[], "V"⟩, ⟨0, 5⟩, none, .none (some ⟨8, 10⟩)⟩

theorem copiedAnalysis_evidence :
    copiedAnalysis.sources.evidence 10 [0] = [0, 1, 2, 3, 4] ∧
      copiedAnalysis.sources.evidence 10 [2] = [8, 9] := by
  have hall : [[0], [2]].map (copiedAnalysis.sources.evidence 10) = [[0, 1, 2, 3, 4], [8, 9]] :=
    SourceAnalysis.evidence_map_of_reachWithin 100 (by decide +kernel)
  simpa using hall

theorem copiedAnalysis_call :
    ((List.range copiedAnalysis.flow.size).filter fun p =>
        (copiedAnalysis.insnAt p).isReflectiveInvoke) = [10] ∧
      copiedAnalysis.constants.getD 10 none = some copiedFrame ∧
      copiedAnalysis.methodCode? 10 = some ⟨0, 5⟩ ∧
      copiedAnalysis.methodLoad? ⟨0, 5⟩ = none ∧
      copiedAnalysis.arguments 10 0 = .none (some ⟨8, 10⟩) ∧
      (copiedSite.edit copiedAnalysis 0).orderAfter [⟨13⟩, ⟨14⟩, ⟨15⟩]
        copiedBody.insns.order.toList = copiedOnce.insns.order.toList := by
  obtain ⟨hmethod, harray⟩ := copiedAnalysis_evidence
  simp only [SiteAnalysis.methodCode?, SiteAnalysis.arguments, SiteAnalysis.spanOf,
    SiteAnalysis.spanOfSlots, hmethod, harray]
  decide +kernel

theorem copiedSite_plan {spent : Std.HashSet Nat} (hspent : ∀ p, spent.contains p = false) :
    copiedAnalysis.plan calleeContext spent 10 copiedFrame = .ok copiedSite := by
  obtain ⟨_, _, hcode, hload, harguments, _⟩ := copiedAnalysis_call
  have hplan := SiteAnalysis.plan_of_unspent copiedFrame hspent rfl
    (target_g ⟨4⟩ "java/lang/Object") hcode
  rw [hload, harguments] at hplan
  exact hplan

theorem copiedBody_planning :
    ∃ s, Planning.run calleeContext copiedAnalysis copiedBody = s ∧
      s.edits = [copiedSite.edit copiedAnalysis 0] ∧ s.loads.isEmpty = true ∧ s.fresh = 0 ∧
      s.outcomes.reverse = [⟨.getMethod, none, "a/A.g()V", none⟩] := by
  obtain ⟨hcalls, hframe, _⟩ := copiedAnalysis_call
  have hcall := isReflectiveInvoke_of_mem hcalls (p := 10) (by simp)
  rw [Planning.run_eq_foldl_calls, hcalls]
  simp only [List.foldl_cons, List.foldl_nil]
  rw [Planning.visit_of_plan hcall hframe (copiedSite_plan (by simp))]
  refine ⟨_, rfl, rfl, ?_, rfl, ?_⟩
  · simp [Planning.accept, copiedSite]
  · decide +kernel

theorem copiedBody_replaced :
    copiedBody.replaceInvokes calleeContext =
      .ok (copiedOnce, [⟨.getMethod, none, "a/A.g()V", none⟩]) := by
  obtain ⟨s, hs, hedits, hloads, hfresh, houtcomes⟩ := copiedBody_planning
  obtain ⟨_, _, _, _, _, horder⟩ := copiedAnalysis_call
  have hsite : (copiedSite.edit copiedAnalysis 0).atSite = [.op Opcode.pop,
      .call Opcode.invokestatic ⟨"a/A", "g", "()V"⟩ false, .op Opcode.aconstNull] := by rfl
  have hids : copiedBody.insns.freshIds 3 = [⟨13⟩, ⟨14⟩, ⟨15⟩] := by rfl
  have hany : copiedBody.insns.insns.any (·.isReflectiveInvoke) = true :=
    (Body.any_insns_ofInsns _ _).trans rfl
  rw [Body.replaceInvokes_of_single hany copiedAnalysis_run (hs ▸ hedits) rfl
    (hs ▸ hloads) (InsnList.ofInsns_proper _), hs, hfresh, houtcomes, hsite]
  simp only [List.length_cons, List.length_nil, Nat.zero_add, Nat.reduceAdd, hids, horder]
  rfl

/-- The duplication finds the stack empty. -/
theorem copiedOnce_underflow :
    ¬ ∃ frames, constantFrames calleeContext.method copiedOnce = .ok frames := by
  have hnone : (constantFrames calleeContext.method copiedOnce).toOption.isNone = true := by
    decide +kernel
  rintro ⟨frames, hframes⟩
  simp [hframes, Except.toOption] at hnone

theorem copiedBody_frames :
    ∃ frames, constantFrames calleeContext.method copiedBody = .ok frames := by
  obtain ⟨constants, hconstants, _⟩ := bind_eq_ok.mp copiedAnalysis_run
  exact ⟨constants, hconstants⟩

/-- The body without the look-up does not fit. -/
theorem replaced_executable_iff_copied :
    ¬ Frame.Fits ConstantValue.domain calleeContext.method copiedOnce := by
  obtain ⟨frames, hframes⟩ := copiedBody_frames
  intro hfits
  exact copiedOnce_underflow ((replaced_executable_iff (InsnList.ofInsns_proper _) hframes
    copiedBody_replaced).2.mpr hfits)

/-- Replacing calls may leave a body that cannot be analysed. -/
theorem not_forall_replaced_executable :
    ¬ ∀ (ctx : MethodContext) (body body' : Body) (frames : Frame.Frames ConstantValue)
      (outcomes : List SiteOutcome), constantFrames ctx.method body = .ok frames →
        body.replaceInvokes ctx = .ok (body', outcomes) →
          (∃ frames', constantFrames ctx.method body' = .ok frames') ∧
            ∀ id ∈ body.insns.order, body.insns.get id = .label →
              id ∈ body'.insns.order ∧ body'.insns.get id = .label := by
  intro hclaim
  obtain ⟨frames, hframes⟩ := copiedBody_frames
  exact copiedOnce_underflow
    (hclaim calleeContext copiedBody copiedOnce frames _ hframes copiedBody_replaced).1

/-! ## Clean cuts -/

open SourceAnalysis (domainOf)
open SourceValue (uncut)
open Frame (keptWidths IsUnit)

namespace Replacement

variable {ctx : MethodContext} {a : SiteAnalysis} {body body' : Body} {decisions : List Decision}
  {plan : EditPlan} {V : Type} [DecidableEq V] {dom : Domain V} {count q : Nat}
  (h : Replacement ctx a body body' decisions plan)
  (hdecides : Planning.Decides ctx a body a.reachedCalls decisions (Planning.run ctx a body))
  (hproper : body.insns.Proper) (hlabels : body.PointsAtLabels) (hclean : body.CleanCut ctx body' a)

/-- Frames that come to where a position was. -/
abbrev known (ctx : MethodContext) (a : SiteAnalysis) (body body' : Body) (dom : Domain V) (count q : Nat) :
    Frame V → Prop :=
  a.sources.Known dom (uncut (body.cuts ctx body' a)) count q

/-- The stages in the place of a position. -/
abbrev UnitAt (ctx : MethodContext) (a : SiteAnalysis) (body body' : Body) (plan : EditPlan) (dom : Domain V)
    (count q : Nat) : Prop :=
  ∃ stages, IsUnit dom body'.insns (fun target f => ∃ t < body.insns.size,
      plan.nodesAt (body.insns.idAt t) = [target] ∧ known ctx a body body' dom count t f)
    (Frame.Raises dom body (known ctx a body body' dom count) q) (known ctx a body body' dom count q)
      (known ctx a body body' dom count (q + 1)) (plan.nodesAt (body.insns.idAt q)) stages

include h hdecides hproper hclean

omit [DecidableEq V] in
/-- A label that is not cut stands alone. -/
theorem nodesAt_label (hq : q < body.insns.size) (hlabel : body.insns.insnAt q = .label)
    (hcut : body.cuts ctx body' a (body.insns.idAt q) = false) :
    plan.nodesAt (body.insns.idAt q) = [body.insns.idAt q] := by
  have hcall : ∀ {d : Draft}, d ∈ Draft.ofEdits body.insns.nodes.size (a.edits decisions) →
      d.edit.site ≠ body.insns.idAt q := by
    intro d hd hsite
    have hreflective := h.site_reflective (mem_edits hd)
    rw [hsite] at hreflective
    change (body.insns.insnAt q).isReflectiveInvoke = true at hreflective
    rw [hlabel] at hreflective
    cases hreflective
  obtain ⟨hmoved, ⟨hremoved, _⟩ | ⟨d, hd, hsite⟩⟩ := h.uncut_cases hdecides hproper hq hcut
  · rw [EditPlan.nodesAt, hmoved, if_neg Bool.false_ne_true]
    rcases h.insertedBefore_cases hproper (body.insns.idAt q) with
      hnone | ⟨d, hd, ⟨hsite, _⟩ | ⟨ids, store, hmove, _⟩⟩
    · rw [hnone, List.nil_append, List.filter_singleton, hremoved]
      rfl
    · exact absurd hsite (hcall hd)
    · obtain ⟨code, receiver, _, _, _, hanchor, hreal, _, _, _, _, hlt, hstop, hahead⟩ :=
        h.exists_cleanMove hproper hclean hd hmove
      obtain rfl := hproper.idAt_inj hq (by omega) hanchor
      rw [hlabel] at hreal
      cases hreal
  · exact absurd hsite (hcall hd)

include hlabels

omit [DecidableEq V] in
/-- Where a jump that stays leads, a node stands for what comes there. -/
theorem jumps_known (hq : q < body.insns.size) (hcut : body.cuts ctx body' a (body.insns.idAt q) = false)
    {target : NodeId} (htarget : target ∈ (body.insns.insnAt q).targets) (hmem : target ∈ body.insns.order)
    {f : Frame V} (hf : known ctx a body body' dom count (body.insns.rank target) f) :
    ∃ t < body.insns.size, plan.nodesAt (body.insns.idAt t) = [target] ∧ known ctx a body body' dom count t f := by
  obtain ⟨hlt, hid⟩ := hproper.rank_lt hmem
  have hrefers : body.RefersTo target :=
    .inl ⟨_, InsnList.mem_order.mpr ⟨q, hq, rfl⟩, htarget⟩
  have hlabel := hlabels target hmem hrefers
  have hstays := h.cuts_label hdecides hproper hmem hlabel (.inr ⟨q, hq, hcut, htarget⟩)
  refine ⟨_, hlt, ?_, hf⟩
  rw [h.nodesAt_label hdecides hproper hclean hlt (by rw [InsnList.insnAt, hid, hlabel]) (by rwa [hid]), hid]

omit hlabels in
/-- Nothing takes the place of what is cut. -/
theorem unitAt_cut (hq : q < body.insns.size) (hcut : body.cuts ctx body' a (body.insns.idAt q) = true) :
    UnitAt ctx a body body' plan dom count q := by
  obtain ⟨hrun, _⟩ := SiteAnalysis.sources_of_run h.analysis
  have hnodes : plan.nodesAt (body.insns.idAt q) = [] := by
    cases hmoved : plan.moved.contains (body.insns.idAt q) with
    | true => rw [EditPlan.nodesAt, hmoved, if_pos rfl]
    | false =>
      have hgone := ((h.cuts_iff hdecides).mp hcut).resolve_left (by simp [hmoved])
      have hremoved := (h.cuts_cases hdecides hproper hq hcut).resolve_left (by simp [hmoved])
      rw [EditPlan.nodesAt, hmoved, if_neg Bool.false_ne_true]
      rcases h.insertedBefore_cases hproper (body.insns.idAt q) with
        hnone | ⟨d, hd, ⟨hsite, _⟩ | ⟨ids, store, hmove, _⟩⟩
      · rw [hnone, List.nil_append, List.filter_singleton, hremoved]
        rfl
      · have hreflective := h.site_reflective (mem_edits hd)
        rw [hsite, hgone.2] at hreflective
        cases hreflective
      · obtain ⟨code, receiver, _, _, hcleanMove, hanchor, _⟩ := h.exists_cleanMove hproper hclean hd hmove
        rw [hanchor, hcleanMove.stays] at hcut
        cases hcut
  rw [UnitAt, hnodes]
  exact ⟨[], SourceAnalysis.isUnit_skipped hrun (hclean.skips q hq hcut)⟩

section Units

variable (hd : dom.Measured) (hsizes : ∀ v : V, dom.size v = 1 ∨ dom.size v = 2)
  (hroom : a.sources.HasRoom (body.addedStores body') count)

include hd hroom

omit hlabels in
/-- The code at a replaced call takes its place. -/
theorem unitAt_call {d : Draft} (hdraft : d ∈ Draft.ofEdits body.insns.nodes.size (a.edits decisions))
    (hq : q < body.insns.size) (hsite : d.edit.site = body.insns.idAt q) :
    UnitAt ctx a body body' plan dom count q := by
  obtain ⟨hrun, _⟩ := SiteAnalysis.sources_of_run h.analysis
  obtain ⟨hidAt, hinsnAt⟩ := h.flow_eq q
  obtain ⟨p, site, fresh, frame, hreplaced, hedit, hsite', hframe, hplanned, hfresh⟩ := h.exists_replaced hdraft
  obtain rfl := hproper.idAt_inj hq hreplaced.1 (hsite.symm.trans hsite')
  obtain ⟨before, hbefore⟩ := h.exists_before hframe
  have hcall := hclean.calls q frame site before hreplaced hframe hplanned hbefore
  have hcut : body.cuts ctx body' a (body.insns.idAt q) = false := by
    rw [Bool.eq_false_iff]
    intro hcut
    have hreflective : (body.insns.get (body.insns.idAt q)).isReflectiveInvoke = true := hreplaced.2.1
    rcases (h.cuts_iff hdecides).mp hcut with hmoved | ⟨_, hother⟩
    · rw [h.moved_not_reflective hmoved] at hreflective
      cases hreflective
    · rw [hother] at hreflective
      cases hreflective
  obtain ⟨receiver, W, hfinds, hstack⟩ := hcall.exists_findsWidths (hroom.size q before hbefore)
    fun hneeds => hroom.fresh q before hbefore fresh (hfresh hneeds)
  have hturns := PlannedSite.turnsAll_atSite hd hplanned hcall.returns hfinds
    (SourceAnalysis.lastNarrow hrun hbefore)
  have hnodes : plan.nodesAt (body.insns.idAt q) = d.block := by
    have hstays := h.site_stays hdraft
    have hremoved := h.removes d.edit (mem_edits hdraft) _ (.inl rfl)
    rw [hsite] at hstays hremoved
    rw [EditPlan.nodesAt, hstays, if_neg Bool.false_ne_true, ← hsite, h.insertedBefore_site hproper hdraft, hsite,
      List.filter_append, List.filter_singleton, hremoved, List.filter_eq_self.mpr fun n hn => by
        rw [(h.new_leaf hproper (h.draft_bounds hdraft (List.mem_append_right _ hn)).1).2]
        rfl]
    exact List.append_nil _
  rw [UnitAt, hnodes]
  exact SourceAnalysis.exists_isUnit_call hd hrun hproper hclean.widths hbefore (by rw [hinsnAt]; exact hreplaced.2.1)
    (by rw [hidAt]; exact hcut) (hclean.hands q hq hcut) hturns (by rw [(h.map_get hdraft).2, hedit]) hstack

include hsizes

/-- An instruction that stays has its place, with the code ahead of it that moves there. -/
theorem unitAt_stays (hq : q < body.insns.size) (hcut : body.cuts ctx body' a (body.insns.idAt q) = false)
    (hmoved : plan.moved.contains (body.insns.idAt q) = false)
    (hremoved : plan.removed.contains (body.insns.idAt q) = false) (hmem : body.insns.idAt q ∈ body'.insns.order) :
    UnitAt ctx a body body' plan dom count q := by
  obtain ⟨hrun, _⟩ := SiteAnalysis.sources_of_run h.analysis
  obtain ⟨hidAt, hinsnAt⟩ := h.flow_eq q
  have hunit : IsUnit dom body'.insns (fun target f => ∃ t < body.insns.size,
      plan.nodesAt (body.insns.idAt t) = [target] ∧ known ctx a body body' dom count t f)
      (Frame.Raises dom body (known ctx a body body' dom count) q) (known ctx a body body' dom count q)
      (known ctx a body body' dom count (q + 1)) [a.sources.flow.idAt q] _ :=
    SourceAnalysis.isUnit_stays hd hrun hproper hclean.widths hsizes (by rw [hidAt]; exact hcut)
      (h.get_flow hproper hq) (hclean.takes q hq hcut hmem) (hclean.hands q hq hcut) fun target htarget hmem f hf =>
        h.jumps_known hdecides hproper hlabels hclean hq hcut (hinsnAt ▸ htarget) hmem hf
  rw [hidAt] at hunit
  rw [UnitAt, EditPlan.nodesAt, hmoved, if_neg Bool.false_ne_true]
  rcases h.insertedBefore_cases hproper (body.insns.idAt q) with
    hnone | ⟨d, hdraft, ⟨hsite, _⟩ | ⟨ids, store, hmove, hahead⟩⟩
  · rw [hnone, List.nil_append, List.filter_singleton, hremoved]
    exact ⟨_, hunit⟩
  · have hgone := h.removes d.edit (mem_edits hdraft) _ (.inl rfl)
    rw [hsite, hremoved] at hgone
    cases hgone
  · obtain ⟨code, receiver, fresh, node, hcleanMove, hanchor, hreal, rfl, hstores, hget, hfresh, hlt, hstop,
        hbehind⟩ := h.exists_cleanMove hproper hclean hdraft hmove
    obtain rfl := hproper.idAt_inj hq (by omega) hanchor
    obtain ⟨height, hapart⟩ := hcleanMove.apart
    have hcarried := SourceAnalysis.isUnit_carried hd hrun hproper hclean.widths hapart (by rwa [hinsnAt])
      (hclean.hands q hq hcut) (fun p hp => h.get_flow hproper (by have := SiteAnalysis.contains_iff.mp hp; omega)) hroom
      hfresh hget hlt hunit
    have hkept : ∀ n ∈ code.positions.map body.insns.idAt ++ [node] ++ [body.insns.idAt q],
        plan.removed.contains n = false := by
      intro n hn
      rw [← hstores, List.append_assoc, List.mem_append, List.mem_append, List.mem_singleton] at hn
      rcases hn with hn | hn | rfl
      · obtain ⟨p, hp, rfl⟩ := List.mem_map.mp hn
        rw [Bool.eq_false_iff]
        exact fun hgone => h.not_mem_of_removed hgone (hcleanMove.there p hp)
      · exact (h.new_leaf hproper (h.draft_bounds hdraft (List.mem_append_left _ hn)).1).2
      · exact hremoved
    have hids : code.positions.map a.sources.flow.idAt = code.positions.map body.insns.idAt :=
      List.map_congr_left fun p _ => (h.flow_eq p).1
    rw [hids] at hcarried
    rw [hahead, hstores, List.filter_eq_self.mpr fun n hn => by rw [hkept n hn]; rfl]
    exact hcarried

/-- Every position has its stages. -/
theorem unitAt (hq : q < body.insns.size) : UnitAt ctx a body body' plan dom count q := by
  cases hcut : body.cuts ctx body' a (body.insns.idAt q) with
  | true => exact h.unitAt_cut hdecides hproper hclean hq hcut
  | false =>
    obtain ⟨hmoved, ⟨hremoved, hmem⟩ | ⟨d, hdraft, hsite⟩⟩ := h.uncut_cases hdecides hproper hq hcut
    · exact h.unitAt_stays hdecides hproper hlabels hclean hd hsizes hroom hq hcut hmoved hremoved hmem
    · exact h.unitAt_call hdecides hproper hclean hd hroom hdraft hq hsite

/-- The new body takes the place of the old one. -/
theorem staged (hregions : body'.regions = body.regions) : Frame.Staged dom body body'
    (known ctx a body body' dom count) fun q => plan.nodesAt (body.insns.idAt q) where
  regions := hregions
  order := h.order_eq hproper
  marks r hr id hid := by
    obtain ⟨hrun, _⟩ := SiteAnalysis.sources_of_run h.analysis
    obtain ⟨_, hflow, _⟩ := SourceAnalysis.run_eq_ok hrun
    have hmem : id ∈ body.insns.order := by
      obtain ⟨hstart, hstop, hhandler⟩ := (Flow.exists_ofBody_iff hproper).mp ⟨_, hflow⟩ r hr
      rcases hid with rfl | rfl | rfl
      · exact hstart
      · exact hstop
      · exact hhandler
    obtain ⟨hlt, hidAt⟩ := hproper.rank_lt hmem
    have hlabel := hlabels id hmem (.inr ⟨r, hr, hid⟩)
    have hstays := h.cuts_label hdecides hproper hmem hlabel (.inl ⟨r, hr, hid⟩)
    refine ⟨hlt, ?_⟩
    rw [h.nodesAt_label hdecides hproper hclean hlt (by rw [InsnList.insnAt, hidAt, hlabel]) (by rwa [hidAt]), hidAt]
  inside q f hf := by
    obtain ⟨before, hbefore, _⟩ := hf
    obtain ⟨hrun, _⟩ := SiteAnalysis.sources_of_run h.analysis
    obtain ⟨hframes, hflow, _⟩ := SourceAnalysis.run_eq_ok hrun
    have hreaches := (Frame.isSome_iff_reaches hframes hflow q).mp (Option.isSome_iff_exists.mpr ⟨before, hbefore⟩)
    have hlt := SourceAnalysis.lt_of_reaches hrun hreaches
    rwa [Flow.size_of_ofBody hflow] at hlt
  units q hq := h.unitAt hdecides hproper hlabels hclean hd hsizes hroom hq

end Units

end Replacement

namespace Body

variable {ctx : MethodContext} {body body' : Body} {outcomes : List SiteOutcome} {a : SiteAnalysis}

/-- The regions stay, and there is a local more for each array that is stored or moved. -/
theorem replaceInvokes_room (ha : SiteAnalysis.run ctx.method body = .ok a)
    (h : body.replaceInvokes ctx = .ok (body', outcomes))
    (hroom : body.maxLocals.toNat + (body.addedStores body').length < 65536) :
    body'.regions = body.regions ∧ body.maxLocals.toNat ≤ body'.maxLocals.toNat ∧
      ∀ slot ∈ body.addedStores body', body.maxLocals.toNat ≤ slot.toNat ∧ slot.toNat < body'.maxLocals.toNat := by
  by_cases hany : body.insns.insns.any (·.isReflectiveInvoke) = true
  · have hadded := addedStores_of_planning ha hany h
    obtain ⟨count, hstores, hfresh⟩ := Planning.run_numbered ctx a body
    unfold replaceInvokes at h
    rw [if_neg (by simp [hany]), ha] at h
    simp only [bind, Except.bind] at h
    split_ifs at h with hnone
    · cases h
      rw [addedStores_self]
      exact ⟨rfl, le_rfl, nofun⟩
    · have hmax : body'.maxLocals = body.maxLocals + UInt16.ofNat count ∧ body'.regions = body.regions := by
        cases h
        exact ⟨hfresh, rfl⟩
      rw [hadded, hstores, localsFrom, List.length_map, List.length_range] at hroom
      have hnext : body'.maxLocals.toNat = body.maxLocals.toNat + count := by
        rw [hmax.1, UInt16.toNat_add, UInt16.toNat_ofNat']
        omega
      refine ⟨hmax.2, by omega, fun slot hslot => ?_⟩
      rw [hadded, hstores] at hslot
      obtain ⟨k, hk, rfl⟩ := List.mem_map.mp hslot
      have hk := List.mem_range.mp hk
      rw [toNat_localsFrom hroom hk]
      omega
  · unfold replaceInvokes at h
    rw [if_pos (by simp [hany])] at h
    cases h
    rw [addedStores_self]
    exact ⟨rfl, le_rfl, nofun⟩

/-- If the cut is clean, the body that is left can be analysed again. -/
theorem executable_of_cleanCut {frames : Frame.Frames ConstantValue} (hproper : body.insns.Proper)
    (hlabels : body.PointsAtLabels) (hframes : constantFrames ctx.method body = .ok frames)
    (ha : SiteAnalysis.run ctx.method body = .ok a)
    (h : body.replaceInvokes ctx = .ok (body', outcomes))
    (hparameters : ∀ parsed, MethodDescriptor.parse ctx.method.descriptor = .ok parsed →
      Frame.entrySlots ctx.method parsed ≤ body.maxLocals.toNat)
    (hroom : body.maxLocals.toNat + (body.addedStores body').length < 65536)
    (hclean : body.CleanCut ctx body' a) : ∃ frames', constantFrames ctx.method body' = .ok frames' := by
  obtain ⟨decisions, plan, hdecides, hreplacement, _, _⟩ := replacement_of_run hproper ha h
  obtain ⟨hregions, hle, hfresh⟩ := replaceInvokes_room ha h hroom
  obtain ⟨hrun, _⟩ := SiteAnalysis.sources_of_run ha
  obtain ⟨hsources, _, _⟩ := SourceAnalysis.run_eq_ok hrun
  obtain ⟨_, entry, _, hentry, hclosed⟩ := Frame.analyze_closed (SourceValue.joinBounds _) hsources
  obtain ⟨_, entry₀, _, hentry₀, _⟩ := Frame.analyze_closed (Frame.Progress.joinBounds_true _) hframes
  obtain ⟨entry', hentry'⟩ := Frame.entry_total hentry₀ body'.maxLocals
  obtain ⟨parsed, hparsed, hsize⟩ := Frame.entry_locals_size hentry
  obtain ⟨parsed', hparsed', hsize'⟩ := Frame.entry_locals_size hentry'
  obtain rfl := Except.ok.inj (hparsed.symm.trans hparsed')
  have hslots := hparameters parsed hparsed
  have hspace : a.sources.HasRoom (body.addedStores body') entry'.locals.size := by
    refine ⟨fun p frame hframe => ?_, fun p frame hframe slot hslot => ?_⟩
    · rw [Frame.locals_size_of_analyze hsources hentry hframe, hsize, hsize']
      omega
    · have hslot := hfresh slot hslot
      rw [Frame.locals_size_of_analyze hsources hentry hframe, hsize, hsize']
      omega
  have hstaged := hreplacement.staged hdecides hproper hlabels hclean ConstantValue.measured
    ConstantValue.size_cases hspace hregions
  obtain ⟨before, hbefore, hcovers⟩ := hclosed.start
  have hagrees := (hclean.widths.entry entry before hentry hbefore).and hcovers
  have hkeeps : Frame.KeepsLocals ConstantValue.domain (uncut (body.cuts ctx body' a)) before.locals entry'.locals :=
    (Frame.keepsLocals_entry ConstantValue.measured hle hentry hentry').mono hagrees.locals_size
      (SourceAnalysis.kept_local_of_agrees (SourceValue.antitone_uncut _) hagrees)
  have hempty : before.stack = [] := by
    have hstack := hagrees.stack
    rw [Frame.entry_stack hentry] at hstack
    exact List.forall₂_nil_right_iff.mp hstack
  have hfits := hstaged.fits (hreplacement.proper hproper) hentry'
    ⟨before, hbefore, by rw [hempty, Frame.entry_stack hentry']; rfl, rfl, hkeeps⟩
  exact (Frame.analyze_ok_iff ConstantValue.ranked hentry').mpr hfits

end Body

/-! ### A look-up that nothing else needs -/

namespace SourceAnalysis

variable {m : MethodSig} {body : Body} {a : SourceAnalysis} {kept : SourceValue → Bool} {q size : Nat}

/-- Where control only goes on to the next position, what it hands on is what the analysis knows there. -/
theorem handsOnKept_of_line (h : run m body = .ok a) (hregions : body.regions = [])
    (htargets : (a.flow.insnAt q).targets = [])
    (hnext : ∀ before ∈ a.frameAt q,
      ∀ handed ∈ (before.execute (SourceValue.domain size) (a.flow.idAt q) (a.flow.insnAt q)).toOption,
        ∀ next ∈ a.frameAt (q + 1), handed.stack = next.stack) : a.HandsOnKept size kept q := by
  obtain ⟨_, hflow, _⟩ := run_eq_ok h
  intro before move handed next hbefore hmove hpass hfound
  cases move with
  | next target =>
    obtain rfl : target = q + 1 := (Flow.next_cases hmove).resolve_right (by rw [htargets]; exact List.not_mem_nil)
    have hhanded : (before.execute (SourceValue.domain size) (a.flow.idAt q) (a.flow.insnAt q)).toOption =
        some handed := congrArg Except.toOption hpass
    rw [hnext before hbefore handed hhanded next hfound]
    exact List.forall₂_same.mpr fun _ _ => id
  | raise edge =>
    obtain ⟨r, hr, _⟩ := (Flow.mem_handlersAt_iff hflow).mp hmove.2
    rw [hregions] at hr
    cases hr

end SourceAnalysis

/-- The look-up and the argument array of the first call go away. -/
def sharedCut (id : NodeId) : Bool :=
  decide (id ∉ sharedOnce.insns.order) && !(sharedBody.insns.get id).isReflectiveInvoke

theorem sharedBody_cuts : sharedBody.cuts calleeContext sharedOnce sharedAnalysis = sharedCut := by
  obtain ⟨s, hs, hedits, _⟩ := sharedBody_planning
  funext id
  rw [Body.cuts, hs, hedits]
  rfl

/-- What the analysis and the cut say at each instruction: the line of the code, what stays, what goes away, and
the first call, which is the one that is replaced and finds its receiver alone. -/
theorem sharedAnalysis_cut :
    (sharedBody.insns.size = 27 ∧ sharedAnalysis.sources.flow.size = 27 ∧
      ∀ q < 27, sharedAnalysis.sources.flow.insnAt q = sharedBody.insns.insnAt q ∧
        (sharedAnalysis.sources.flow.insnAt q).targets = [] ∧
        Descriptor.size (sharedAnalysis.sources.flow.insnAt q).result? = 1 ∧
        ∀ before ∈ sharedAnalysis.sources.frameAt q,
          ∀ handed ∈ (before.execute (domainOf sharedBody) (sharedAnalysis.sources.flow.idAt q)
            (sharedAnalysis.sources.flow.insnAt q)).toOption,
            ∀ next ∈ sharedAnalysis.sources.frameAt (q + 1), handed.stack = next.stack) ∧
      (∀ q < 27, sharedCut (sharedBody.insns.idAt q) = false →
        sharedBody.insns.idAt q ∈ sharedOnce.insns.order → ∀ before ∈ sharedAnalysis.sources.frameAt q,
          (Frame.execute (domainOf sharedBody) (sharedAnalysis.sources.flow.idAt q)
            (sharedAnalysis.sources.flow.insnAt q)
            ⟨before.locals, before.stack.takeWhile (uncut sharedCut)⟩).toOption.isSome = true ∧
            ∀ var ∈ (sharedAnalysis.sources.flow.insnAt q).readSlot?, ∀ v ∈ before.locals[var]?,
              v.uncut sharedCut = true) ∧
      (∀ q < 27, sharedCut (sharedBody.insns.idAt q) = true →
        ∀ before ∈ sharedAnalysis.sources.frameAt q, ∃ next ∈ sharedAnalysis.sources.frameAt (q + 1),
          keptWidths (uncut sharedCut) next.stack = keptWidths (uncut sharedCut) before.stack ∧
            next.locals = before.locals) ∧
      (∀ p < 27, (sharedBody.insns.insnAt p).isReflectiveInvoke = true →
        sharedBody.insns.idAt p ∉ sharedOnce.insns.order → p = 15) ∧
      ∀ before ∈ sharedAnalysis.sources.frameAt 15,
        (before.stack.take 3).map (uncut sharedCut) = [false, true, false] := by
  refine ⟨?_, ?_, ?_, ?_⟩ <;> decide +kernel

theorem sharedBody_cleanCut : sharedBody.CleanCut calleeContext sharedOnce sharedAnalysis := by
  obtain ⟨hrun, hflow⟩ := SiteAnalysis.sources_of_run sharedAnalysis_run
  obtain ⟨⟨hsize, hflowSize, hline⟩, hstays, hskips, hcall, hoperands⟩ := sharedAnalysis_cut
  obtain ⟨_, hframeG, _⟩ := sharedAnalysis_calls
  have hplan := SiteAnalysis.planned_of_plan (sharedSite_plan fun _ => Std.HashSet.contains_empty)
  -- The plan of the one call that is replaced.
  have hsite : ∀ p frame site, sharedBody.ReplacedAt sharedOnce p →
      sharedAnalysis.constants.getD p none = some frame → sharedAnalysis.Planned calleeContext p frame site →
        p = 15 ∧ site.arguments = .none (some ⟨13, 15⟩) ∧ site.parsed = ⟨[], "V"⟩ := by
    intro p frame site hreplaced hframe hplanned
    obtain rfl := hcall p (hsize ▸ hreplaced.1) hreplaced.2.1 hreplaced.2.2
    obtain rfl := Option.some.inj (hframe.symm.trans hframeG)
    exact ⟨rfl, hplanned.unique hplan⟩
  constructor
  case widths =>
    refine SourceAnalysis.widthsMeet_of_narrow hrun (fun entry hentry => ?_) fun p hp => ?_
    · have hmeasured := SourceValue.measured sharedBody.insns.nodes.size
      refine Frame.entry_all (hmeasured.ofDescriptor none) (hmeasured.receiver _)
        (fun parsed hparsed param hparam => ?_) hentry
      obtain rfl := Except.ok.inj (hparsed.symm.trans calleeG_parse)
      cases hparam
    · exact (hline p (hflowSize ▸ hp)).2.2.1
  case takes =>
    intro q hq hcut hmem before hbefore
    rw [sharedBody_cuts] at hcut ⊢
    obtain ⟨htakes, hreads⟩ := hstays q (hsize ▸ hq) hcut hmem before hbefore
    refine ⟨?_, fun var hvar v hv => hreads var hvar v hv⟩
    exact ⟨_, eq_ok_get htakes⟩
  case hands =>
    intro q hq _
    obtain ⟨_, htargets, _, hnext⟩ := hline q (hsize ▸ hq)
    exact SourceAnalysis.handsOnKept_of_line hrun rfl htargets hnext
  case skips =>
    intro q hq hcut before hbefore
    rw [sharedBody_cuts] at hcut ⊢
    obtain ⟨next, hnext, hstack, hlocals⟩ := hskips q (hsize ▸ hq) hcut before hbefore
    exact ⟨next, hnext, hstack, fun var v' hv' hkept => ⟨v', hlocals ▸ hv', hkept, rfl⟩⟩
  case calls =>
    intro p frame site before hreplaced hframe hplanned hbefore
    obtain ⟨rfl, harguments, hparsed⟩ := hsite p frame site hreplaced hframe hplanned
    rw [sharedBody_cuts]
    refine ⟨?_, fun hstored => ?_, fun var load hlocal => ?_, ?_⟩
    · rw [hoperands before hbefore, PlannedSite.keepsArray, harguments]
    · rw [harguments] at hstored
      cases hstored
    · rw [harguments] at hlocal
      cases hlocal
    · rw [hparsed]
      decide
  case moves =>
    intro p frame site code receiver hreplaced hframe hplanned hmoved
    rw [(hsite p frame site hreplaced hframe hplanned).2.1] at hmoved
    cases hmoved

theorem sharedBody_pointsAtLabels : sharedBody.PointsAtLabels := by
  obtain ⟨⟨hsize, _, hline⟩, _⟩ := sharedAnalysis_cut
  rintro id _ (⟨n, hn, hid⟩ | ⟨r, hr, _⟩)
  · obtain ⟨q, hq, rfl⟩ := InsnList.mem_order.mp hn
    obtain ⟨hinsn, htargets, _⟩ := hline q (hsize ▸ hq)
    rw [hinsn, InsnList.insnAt] at htargets
    rw [htargets] at hid
    cases hid
  · cases hr

/-- The body can be analysed again when its first call is replaced. -/
theorem executable_of_cleanCut_shared : sharedBody.CleanCut calleeContext sharedOnce sharedAnalysis ∧
    ∃ frames, constantFrames calleeContext.method sharedOnce = .ok frames := by
  obtain ⟨_, hframes⟩ := SiteAnalysis.flow_of_run sharedAnalysis_run
  refine ⟨sharedBody_cleanCut, Body.executable_of_cleanCut (InsnList.ofInsns_proper _) sharedBody_pointsAtLabels
    hframes sharedAnalysis_run sharedBody_first_run (fun parsed hparsed => ?_) (by decide) sharedBody_cleanCut⟩
  obtain rfl := Except.ok.inj (hparsed.symm.trans calleeG_parse)
  decide

end DirectCall
