import DirectCall.Proofs.CallSite.Place
import DirectCall.Proofs.CallSite.Repeat

/-!
# Direct calls in the place of reflective ones

Each reached call of `invoke` has its outcome, and each replaced one has a block of new nodes in its
place, with one direct call of the reported method (`replaceInvokes_substitutes`). Everything else stays,
but for the operand code of replaced calls and for look-ups that became dead. Only if the method called
is `invoke` itself do calls of `invoke` come in.

So each run that replaces a call leaves fewer of them, and runs that follow one another come to rest
(`replaceInvokes_rests`): the second one is idle already if the first one replaced every call
(`second_run_idle_of_all_replaced`).
-/

namespace DirectCall

/-- How `invoke` itself is reported. -/
def invokeText : String :=
  "java/lang/reflect/Method.invoke(Ljava/lang/Object;[Ljava/lang/Object;)Ljava/lang/Object;"

/-- The nodes of a list that call `invoke`, in order. -/
def InsnList.reflectiveCalls (list : InsnList) : List NodeId :=
  list.order.toList.filter fun id => (list.get id).isReflectiveInvoke

theorem InsnList.mem_reflectiveCalls {list : InsnList} {id : NodeId} :
    id ∈ list.reflectiveCalls ↔ id ∈ list.order ∧ (list.get id).isReflectiveInvoke = true := by
  rw [reflectiveCalls, List.mem_filter, Array.mem_toList_iff]

namespace Body

/-- A block of new nodes takes the place of a planned call. -/
structure TakesPlace (body body' : Body) (site : PlannedSite) (block : List NodeId) : Prop where
  call : body.insns.idAt site.position ∉ body'.insns.order
  /-- With the call, its method object is gone. -/
  method : ∀ q ∈ site.methodCode.positions, (body.insns.insnAt q).isReal = true →
    body.insns.idAt q ∉ body'.insns.order
  new : ∀ id ∈ block, body.insns.nodes.size ≤ id.index
  stands : body.StandsAt body' site.position block
  direct : site.directCall ∈ block.map body'.insns.get
  /-- No other node of the block calls the method. -/
  once : (block.map body'.insns.get).countP
    (fun insn => insn.invoked? = some site.resolved.member) = 1

/-- A block of new nodes takes the place of the call at a position, which is replaced by a call of the
method that `target` spells. -/
def HasBlock (ctx : MethodContext) (body body' : Body) (p : Nat) (target : String)
    (block : List NodeId) : Prop :=
  ∃ a frame site, SiteAnalysis.run ctx.method body = .ok a ∧ a.constants.getD p none = some frame ∧
    a.Planned ctx p frame site ∧ target = site.resolved.text ∧ body.TakesPlace body' site block

/-- An outcome tells what became of the call at a position. -/
structure Accounts (ctx : MethodContext) (body body' : Body) (p : Nat) (o : SiteOutcome) : Prop where
  pass : o.pass = .getMethod
  line : o.line = body.lineAt p
  replaced : o.isTransformed = true ↔ body.insns.idAt p ∉ body'.insns.order
  block : o.isTransformed = true → ∃ block, body.HasBlock ctx body' p o.target block

/-- Direct calls take the place of reflective ones, and nothing else happens. -/
structure Substitutes (ctx : MethodContext) (body body' : Body) (outcomes : List SiteOutcome) :
    Prop where
  /-- Each reached call has one outcome, in order. -/
  reports : ∃ calls : List Nat, calls.Pairwise (· < ·) ∧ (∀ p, p ∈ calls ↔ body.ReachesCall p) ∧
    List.Forall₂ (body.Accounts ctx body') calls outcomes
  idle : (∀ o ∈ outcomes, o.isTransformed = false) → body' = body
  count : body'.insns.reflectiveCalls.length + outcomes.countP (·.isTransformed) =
    body.insns.reflectiveCalls.length
  /-- No node has two places, and old nodes keep their instruction. -/
  distinct : body'.insns.order.toList.Nodup
  kept : ∀ id ∈ body.insns.order, body'.insns.get id = body.insns.get id
  markers : ∀ id ∈ body.insns.order, (body.insns.get id).isReal = false →
    body'.insns.order.toList.count id = 1
  missing : ∀ p < body.insns.size, body.insns.idAt p ∉ body'.insns.order →
    body.ReplacedAt body' p ∨ ∃ a, SiteAnalysis.run ctx.method body = .ok a ∧
      ((∃ call, body.ReplacedAt body' call ∧ a.InOperandCode call p) ∨
        a.InDeadLookup (· ∉ body'.insns.order) p)
  /-- New nodes are in blocks, or store an array whose code has moved. -/
  new : ∀ id ∈ body'.insns.order, id ∈ body.insns.order ∨
    (∃ var, body'.insns.get id = .var Opcode.astore var) ∨
      ∃ p target block, body.HasBlock ctx body' p target block ∧ id ∈ block

end Body

theorem PlannedSite.text_of_reflective {p : PlannedSite} (h : p.directCall.isReflectiveInvoke = true) :
    p.resolved.text = invokeText := by
  simp only [directCall, Insn.call, Insn.isReflectiveInvoke, ResolvedMethod.member, Bool.and_eq_true,
    beq_iff_eq] at h
  obtain ⟨⟨⟨_, howner⟩, hname⟩, hdescriptor⟩ := h
  rw [ResolvedMethod.text, howner, hname, hdescriptor]
  rfl

namespace Replacement

variable {ctx : MethodContext} {a : SiteAnalysis} {body body' : Body} {decisions : List Decision}
  {plan : EditPlan} (h : Replacement ctx a body body' decisions plan)

include h

/-- The block of a replaced call. -/
theorem hasBlock (hproper : body.insns.Proper) {c : Decision} (hc : c ∈ decisions) {d : Draft}
    (hd : d ∈ Draft.ofEdits body.insns.nodes.size (a.edits decisions))
    (hedit : c.edit? a = some d.edit) :
    body.HasBlock ctx body' c.position (c.outcome body).target d.block := by
  obtain ⟨site, fresh, hverdict, _, hcarries, hcall⟩ := h.carries_of_edit hc hedit
  obtain ⟨spent, frame, hframe, hplan⟩ := h.planned c hc site fresh hverdict
  have hplanned := SiteAnalysis.planned_of_plan hplan
  obtain ⟨m, length, _, htarget, _⟩ := hplanned.known
  obtain ⟨first, var, hatSite, hfirst, _⟩ := hcarries.atSite
  have hsite := h.site_of_edit hc hedit
  have hget := (h.map_get hd).2
  refine ⟨a, frame, site, h.analysis, hframe, hplanned, by simp [Decision.outcome, hverdict],
    ?call, ?method, ?new, ?stands, ?direct, ?once⟩
  case call =>
    rw [hcall]
    exact h.not_mem_of_removed (h.removes d.edit (mem_edits hd) _ (.inl hsite.symm))
  case method =>
    intro q hq hreal
    have hgone := hcarries.method q hq (by rwa [SiteAnalysis.isReal, h.insnAt])
    rw [h.idAt] at hgone
    exact h.not_mem_of_removed (h.removes d.edit (mem_edits hd) _ (.inr hgone))
  case new => exact fun id hid => (h.draft_bounds hd (List.mem_append_right _ hid)).1
  case stands =>
    rw [hcall]
    exact h.stands hproper hd (h.call_lt hc).1 hsite
  case direct =>
    rw [hget, hatSite]
    exact List.mem_append_right _ (site.directCall_mem_callCode var)
  case once =>
    have hnone : first.countP (fun insn => insn.invoked? = some site.resolved.member) = 0 := by
      rcases hfirst with rfl | rfl | ⟨_, rfl⟩ <;> rfl
    have hparse := (MethodContext.targets_of_target htarget).parses
    rw [hget, hatSite, List.countP_append, hnone, PlannedSite.countP_callCode hparse]

/-! ## Outcomes -/

theorem position_inj {c c' : Decision} (hc : c ∈ decisions) (hc' : c' ∈ decisions)
    (heq : c.position = c'.position) : c = c' := by
  have hnodup : (decisions.map (·.position)).Nodup := by
    rw [h.calls]
    exact a.reachedCalls_sorted.imp Nat.ne_of_lt
  exact List.inj_on_of_nodup_map hnodup hc hc' heq

/-- What is reported of a call is what became of it. -/
theorem accounts (hproper : body.insns.Proper) {c : Decision} (hc : c ∈ decisions) :
    body.Accounts ctx body' c.position (c.outcome body) := by
  have hreplaced : body.insns.idAt c.position ∉ body'.insns.order → (c.edit? a).isSome = true := by
    intro hgone
    obtain ⟨c', hc', hposition, d, _, hedit⟩ :=
      h.exists_draft hproper ⟨(h.call_lt hc).1, (h.call_lt hc).2, hgone⟩
    rw [h.position_inj hc hc' hposition.symm, hedit]
    rfl
  have hblock : (c.edit? a).isSome = true →
      ∃ block, body.HasBlock ctx body' c.position (c.outcome body).target block := by
    intro hsome
    obtain ⟨e, hedit⟩ := Option.isSome_iff_exists.mp hsome
    obtain ⟨d, hd, rfl⟩ := exists_draft_of_edit (List.mem_filterMap.mpr ⟨c, hc, hedit⟩)
    exact ⟨d.block, h.hasBlock hproper hc hd hedit⟩
  have hreport : (c.outcome body).pass = .getMethod ∧
      (c.outcome body).line = body.lineAt c.position := by
    unfold Decision.outcome
    split <;> exact ⟨rfl, rfl⟩
  rw [← Decision.isTransformed_outcome body] at hreplaced hblock
  refine ⟨hreport.1, hreport.2, ⟨fun htransformed => ?_, hreplaced⟩, hblock⟩
  obtain ⟨block, _, _, site, _, _, hplanned, _, htakes⟩ := hblock htransformed
  rw [← hplanned.call]
  exact htakes.call

omit h in
theorem length_edits (body : Body) (a : SiteAnalysis) (decisions : List Decision) :
    (decisions.map (·.outcome body)).countP (·.isTransformed) =
      (a.edits decisions).length := by
  rw [SiteAnalysis.edits, List.length_filterMap_eq_countP, List.countP_map]
  exact List.countP_congr fun c _ => by
    rw [Function.comp_apply, Decision.isTransformed_outcome body a]

/-! ## The number of calls -/

/-- New code does not call `invoke`, unless that is what it was asked to call. -/
theorem new_not_reflective
    (hself : ∀ c ∈ decisions, ∀ site fresh, c.verdict = .ok (site, fresh) →
      site.resolved.text ≠ invokeText) {id : NodeId} (hid : id ∈ body'.insns.order)
    (hnew : id ∉ body.insns.order) : (body'.insns.get id).isReflectiveInvoke = false := by
  rcases (h.mem_order_cases hid).resolve_left hnew with ⟨var, hstore⟩ | ⟨d, hd, hblock⟩
  · rw [hstore]
    rfl
  · obtain ⟨c, hc, hedit, _⟩ := h.exists_decision (mem_edits hd)
    obtain ⟨site, fresh, hverdict, _, hcarries, _⟩ := h.carries_of_edit hc hedit
    obtain ⟨first, var, hatSite, hfirst, _⟩ := hcarries.atSite
    have hget := List.mem_map_of_mem hblock (f := body'.insns.get)
    rw [(h.map_get hd).2, hatSite] at hget
    rcases List.mem_append.mp hget with hget | hget
    · rcases hfirst with rfl | rfl | ⟨_, rfl⟩
      · simp at hget
      · rw [List.mem_singleton.mp hget]
        rfl
      · rw [List.mem_singleton.mp hget]
        rfl
    · rcases PlannedSite.mem_callCode hget with hcall | hadapts
      · rw [Bool.eq_false_iff, hcall]
        exact fun hreflective =>
          hself c hc site fresh hverdict (PlannedSite.text_of_reflective hreflective)
      · exact hadapts.not_reflective

/-- The calls that are left, with the replaced ones, are those that were there. -/
theorem calls_perm (hproper : body.insns.Proper)
    (hself : ∀ c ∈ decisions, ∀ site fresh, c.verdict = .ok (site, fresh) →
      site.resolved.text ≠ invokeText) :
    (body'.insns.reflectiveCalls ++ (a.edits decisions).map (·.site)).Perm
      body.insns.reflectiveCalls := by
  have hsites : ∀ id, id ∈ (a.edits decisions).map (·.site) →
      id ∈ body.insns.order ∧ (body.insns.get id).isReflectiveInvoke = true ∧
        id ∉ body'.insns.order := by
    intro id hid
    obtain ⟨e, he, rfl⟩ := List.mem_map.mp hid
    obtain ⟨c, hc, hsite⟩ := h.site_eq he
    exact ⟨InsnList.mem_order.mpr ⟨c.position, (h.call_lt hc).1, hsite⟩, h.site_reflective he,
      h.not_mem_of_removed (h.removes e he _ (.inl rfl))⟩
  have hleft : body'.insns.reflectiveCalls.Nodup := (h.proper hproper).distinct.filter _
  have hbefore : body.insns.reflectiveCalls.Nodup := hproper.distinct.filter _
  refine (List.perm_ext_iff_of_nodup ?_ hbefore).mpr fun id => ?_
  · refine List.nodup_append.mpr ⟨hleft, h.sites_nodup hproper, ?_⟩
    rintro id hid _ hsite rfl
    exact (hsites id hsite).2.2 (InsnList.mem_reflectiveCalls.mp hid).1
  · rw [List.mem_append, InsnList.mem_reflectiveCalls, InsnList.mem_reflectiveCalls]
    constructor
    · rintro (⟨hmem, hreflective⟩ | hsite)
      · have hold : id ∈ body.insns.order := by
          by_contra hnew
          rw [h.new_not_reflective hself hmem hnew] at hreflective
          exact Bool.false_ne_true hreflective
        rw [h.get_of_lt (hproper.owned id hold)] at hreflective
        exact ⟨hold, hreflective⟩
      · exact ⟨(hsites id hsite).1, (hsites id hsite).2.1⟩
    · rintro ⟨hmem, hreflective⟩
      by_cases hkept : id ∈ body'.insns.order
      · rw [h.get_of_lt (hproper.owned id hmem)]
        exact .inl ⟨hkept, hreflective⟩
      · obtain ⟨p, hp, rfl⟩ := InsnList.mem_order.mp hmem
        obtain ⟨e, he, hsite⟩ := (h.gone_iff hproper hp hreflective).mp hkept
        exact .inr (List.mem_map.mpr ⟨e, he, hsite⟩)

/-! ## What is missing -/

theorem missing (hproper : body.insns.Proper) {p : Nat} (hp : p < body.insns.size)
    (hgone : body.insns.idAt p ∉ body'.insns.order) :
    body.ReplacedAt body' p ∨ (∃ call, body.ReplacedAt body' call ∧ a.InOperandCode call p) ∨
      a.InDeadLookup (· ∉ body'.insns.order) p := by
  have hremoved : plan.removed.contains (body.insns.idAt p) = true := by
    rw [← Bool.not_eq_false]
    exact fun hkept => hgone (h.mem_of_kept hproper (InsnList.mem_order.mpr ⟨p, hp, rfl⟩) hkept)
  obtain ⟨q, hq, heq, _, hcases⟩ := h.removed_cases hremoved
  obtain rfl := hproper.idAt_inj hp hq heq
  rcases hcases with ⟨e, he, hsite⟩ | ⟨_, ⟨e, he, c, hc, hsite, hoperand⟩ | hlookup⟩
  · refine .inl ⟨hp, ?_, hgone⟩
    have hreflective := h.site_reflective he
    rwa [← hsite] at hreflective
  · refine .inr (.inl ⟨c.position, ⟨(h.call_lt hc).1, (h.call_lt hc).2, ?_⟩, hoperand⟩)
    exact h.not_mem_of_removed (h.removes e he _ (.inl hsite.symm))
  · exact .inr (.inr (hlookup.mono fun id => h.not_mem_of_removed))

/-- A plan that is carried out substitutes direct calls. -/
theorem substitutes (hproper : body.insns.Proper)
    (hself : ∀ c ∈ decisions, ∀ site fresh, c.verdict = .ok (site, fresh) →
      site.resolved.text ≠ invokeText) :
    body.Substitutes ctx body' (decisions.map (·.outcome body)) := by
  refine ⟨⟨a.reachedCalls, a.reachedCalls_sorted, SiteAnalysis.mem_reachedCalls h.analysis, ?reports⟩,
    ?idle, ?count, (h.proper hproper).distinct, fun id hid => h.get_of_lt (hproper.owned id hid), ?markers, ?missing,
    ?new⟩
  case reports =>
    rw [← h.calls, List.forall₂_map_left_iff, List.forall₂_map_right_iff, List.forall₂_same]
    exact fun c hc => h.accounts hproper hc
  case idle =>
    intro hnone
    have hcount := length_edits body a decisions
    rw [List.countP_eq_zero.mpr fun o ho => by simp [hnone o ho]] at hcount
    exact h.idle (List.length_eq_zero_iff.mp hcount.symm)
  case count =>
    have hlength := (h.calls_perm hproper hself).length_eq
    rwa [List.length_append, List.length_map, ← length_edits body] at hlength
  case markers =>
    intro id hid hreal
    exact List.count_eq_one_of_mem (h.proper hproper).distinct
      (Array.mem_toList_iff.mpr (h.label_mem hproper hid hreal))
  case missing =>
    intro p hp hgone
    exact (h.missing hproper hp hgone).imp_right fun hcases => ⟨a, h.analysis, hcases⟩
  case new =>
    intro id hid
    refine (h.mem_order_cases hid).imp_right (Or.imp_right ?_)
    rintro ⟨d, hd, hblock⟩
    obtain ⟨c, hc, hedit, _⟩ := h.exists_decision (mem_edits hd)
    exact ⟨c.position, _, d.block, h.hasBlock hproper hc hd hedit, hblock⟩

end Replacement

section Runs

variable {ctx : MethodContext}

/-- Every outcome of a replacement takes one call away. -/
theorem Body.length_reflectiveCalls {body body' : Body} {outcomes : List SiteOutcome} (hproper : body.insns.Proper)
    (h : body.replaceInvokes ctx = .ok (body', outcomes))
    (hself : ∀ o ∈ outcomes, o.isTransformed = true → o.target ≠ invokeText) :
    body'.insns.reflectiveCalls.length + outcomes.countP (·.isTransformed) =
      body.insns.reflectiveCalls.length := by
  rcases Body.replacement_of_replaceInvokes hproper h with ⟨rfl, rfl, _⟩ | ⟨a, decisions, plan, hplan, rfl⟩
  · rfl
  · refine (hplan.substitutes hproper fun c hc site fresh hverdict => ?_).count
    have htarget := hself (c.outcome body) (List.mem_map_of_mem hc)
    simp only [Decision.outcome, hverdict, SiteOutcome.isTransformed] at htarget
    exact htarget rfl

/-- A run that replaces nothing leaves the body alone, and any other one leaves fewer calls. -/
theorem Body.idle_or_fewer {body body' : Body} {outcomes : List SiteOutcome} (hproper : body.insns.Proper)
    (h : body.replaceInvokes ctx = .ok (body', outcomes))
    (hself : ∀ o ∈ outcomes, o.isTransformed = true → o.target ≠ invokeText) :
    (∀ o ∈ outcomes, o.isTransformed = false) ∧ body' = body ∨
      body'.insns.reflectiveCalls.length < body.insns.reflectiveCalls.length := by
  rcases Body.replaceInvokes_cases h with ⟨_, hsame, hidle⟩ | ⟨_, o, ho, htransformed⟩
  · exact .inl ⟨hidle, hsame⟩
  · right
    have hpos : 0 < outcomes.countP (·.isTransformed) := List.countP_pos_iff.mpr ⟨o, ho, htransformed⟩
    have := Body.length_reflectiveCalls hproper h hself
    omega

/-- A body without calls has none to replace. -/
theorem Body.HasReplaceable.reflectiveCalls_ne_nil {body : Body} (h : body.HasReplaceable ctx) :
    body.insns.reflectiveCalls ≠ [] := by
  obtain ⟨a, ha, p, hp, frame, hreplaceable⟩ := h
  rw [Flow.size, Body.list_of_run ha] at hp
  have hreflective := hreplaceable.reflective
  rw [SiteAnalysis.insnAt, Flow.insnAt, Body.list_of_run ha] at hreflective
  have hmem : body.insns.idAt p ∈ body.insns.order := InsnList.mem_order.mpr ⟨p, hp, rfl⟩
  exact List.ne_nil_of_mem (InsnList.mem_reflectiveCalls.mpr ⟨hmem, hreflective⟩)

/-- Runs come to rest: after as many of them as the body has calls, nothing is replaced any more. -/
theorem replaceInvokes_rests {bodies : Nat → Body} {outcomes : Nat → List SiteOutcome}
    (hproper : (bodies 0).insns.Proper)
    (hruns : ∀ i, (bodies i).replaceInvokes ctx = .ok (bodies (i + 1), outcomes i))
    (hself : ∀ i, ∀ o ∈ outcomes i, o.isTransformed = true → o.target ≠ invokeText) {i : Nat}
    (hi : (bodies 0).insns.reflectiveCalls.length ≤ i) :
    (∀ o ∈ outcomes i, o.isTransformed = false) ∧ bodies (i + 1) = bodies i := by
  have hpropers : ∀ i, (bodies i).insns.Proper := by
    intro i
    induction i with
    | zero => exact hproper
    | succ i ih => exact Body.replaceInvokes_proper ih (hruns i)
  have hrest : ∀ i, (∀ o ∈ outcomes i, o.isTransformed = false) ∧ bodies (i + 1) = bodies i ∨
      (bodies (i + 1)).insns.reflectiveCalls.length + (i + 1) ≤ (bodies 0).insns.reflectiveCalls.length := by
    intro i
    induction i with
    | zero => exact Body.idle_or_fewer (hpropers 0) (hruns 0) (hself 0)
    | succ i ih =>
      rcases ih with ⟨hidle, hsame⟩ | hfew
      · -- The next run does over again what this one did.
        have hagain := hruns (i + 1)
        rw [hsame, hruns i, Except.ok.injEq, Prod.mk.injEq] at hagain
        exact .inl ⟨hagain.2 ▸ hidle, hagain.1.symm⟩
      · refine (Body.idle_or_fewer (hpropers (i + 1)) (hruns (i + 1)) (hself (i + 1))).imp_right fun hfewer => ?_
        omega
  refine (hrest i).resolve_right fun hfew => ?_
  omega

/-- The second run is idle already if the first one replaced every call. -/
theorem second_run_idle_of_all_replaced {body once twice : Body} {first second : List SiteOutcome}
    (hproper : body.insns.Proper) (hfirst : body.replaceInvokes ctx = .ok (once, first))
    (hsecond : once.replaceInvokes ctx = .ok (twice, second))
    (hself : ∀ o ∈ first, o.isTransformed = true → o.target ≠ invokeText)
    (hall : first.countP (·.isTransformed) = body.insns.reflectiveCalls.length) :
    (∀ o ∈ second, o.isTransformed = false) ∧ twice = once := by
  rcases Body.replaceInvokes_cases hsecond with ⟨_, hsame, hidle⟩ | ⟨hsome, _⟩
  · exact ⟨hidle, hsame⟩
  · have hcount := Body.length_reflectiveCalls hproper hfirst hself
    have hnone : once.insns.reflectiveCalls = [] := List.length_eq_zero_iff.mp (by omega)
    exact absurd hnone hsome.reflectiveCalls_ne_nil

end Runs

end DirectCall
