import DirectCall.CallSite.Invoke
import DirectCall.Proofs.EditPlan.Apply
import DirectCall.Proofs.Frame.Path
import DirectCall.Proofs.Frame.Settles

/-!
# Planning all calls of a body

The calls of a body are planned one after another, and a plan only ever holds up the plans that come
after it. So some call is replaced exactly if one of them could be replaced on its own
(`Body.replaceInvokes_cases`).

A run of the planning decides about every reached call, one after another. Outcomes, edits and the loads
that go away are read off the decisions (`run_decides`).
-/

namespace DirectCall

/-- A reached call of `invoke` whose method is known and may be called, and whose method object has
code that can be removed. -/
structure SiteAnalysis.Replaceable (ctx : MethodContext) (a : SiteAnalysis) (position : Nat)
    (frame : Frame ConstantValue) : Prop where
  reflective : (a.insnAt position).isReflectiveInvoke = true
  reached : a.constants.getD position none = some frame
  known : ∃ m target, frame.peek? 2 = some (.method m) ∧
    ctx.target m (frame.peek? 0) = .ok target
  removable : ∃ code, a.methodCode? position = some code

namespace SiteAnalysis

variable {ctx : MethodContext} {a : SiteAnalysis} {spent : Std.HashSet Nat} {position : Nat}
  {frame : Frame ConstantValue}

/-- What a plan says about its call. -/
structure Planned (ctx : MethodContext) (a : SiteAnalysis) (position : Nat)
    (frame : Frame ConstantValue) (site : PlannedSite) : Prop where
  call : site.position = position
  known : ∃ m length, frame.peek? 2 = some (.method m) ∧
    ctx.target m (frame.peek? 0) = .ok (site.resolved, site.parsed, length) ∧
    site.arguments = a.arguments position length
  methodCode : a.methodCode? position = some site.methodCode
  methodLoad : site.methodLoad = a.methodLoad? site.methodCode

/-- Only calls that are replaceable get a plan. -/
theorem planned_of_plan {site : PlannedSite} (h : a.plan ctx spent position frame = .ok site) :
    Planned ctx a position frame site := by
  unfold plan at h
  split at h
  · rename_i m hm
    obtain ⟨⟨resolved, parsed, length⟩, htarget, h⟩ := bind_eq_ok.mp h
    rw [mapError_eq_ok] at htarget
    dsimp only at h
    split at h
    · simp [throw, throwThe, MonadExceptOf.throw] at h
    · rename_i code hcode
      split_ifs at h
      simp only [pure, Except.pure, Except.ok.injEq] at h
      subst h
      exact ⟨rfl, ⟨m, length, hm, htarget, rfl⟩, hcode, rfl⟩
  · simp [throw, throwThe, MonadExceptOf.throw] at h

/-- The plan of a call while no code is spent. -/
theorem plan_of_unspent (frame : Frame ConstantValue) {m : MethodLookup} {resolved : ResolvedMethod}
    {parsed : MethodDescriptor} {length : Int32} {code : Span} (hspent : ∀ p, spent.contains p = false)
    (hm : frame.peek? 2 = some (.method m))
    (htarget : ctx.target m (frame.peek? 0) = .ok (resolved, parsed, length))
    (hcode : a.methodCode? position = some code) :
    a.plan ctx spent position frame =
      .ok ⟨position, resolved, parsed, code, a.methodLoad? code, a.arguments position length⟩ := by
  have hany : ∀ ps : List Nat, ps.any spent.contains = false := by
    intro ps
    simp [hspent]
  unfold plan
  simp only [hm, htarget, hcode, mapError_ok, bind, Except.bind, hany, Bool.false_eq_true, if_false]
  rfl

end SiteAnalysis

namespace Planning

variable {ctx : MethodContext} {a : SiteAnalysis} {body : Body}

/-- Nothing is planned, and every call met so far was left alone. -/
structure Idle (s : Planning) : Prop where
  edits : s.edits = []
  spent : ∀ p, s.spent.contains p = false
  outcomes : ∀ o ∈ s.outcomes, o.isTransformed = false

/-- Some call is replaced. -/
def Replaces (s : Planning) : Prop := ∃ o ∈ s.outcomes, o.isTransformed = true

theorem visit_of_not_reflective {s : Planning} {position : Nat}
    (h : (a.insnAt position).isReflectiveInvoke = false) : s.visit ctx a body position = s := by
  simp [visit, h]

theorem visit_of_plan {s : Planning} {position : Nat} {frame : Frame ConstantValue}
    {site : PlannedSite} (hreflective : (a.insnAt position).isReflectiveInvoke = true)
    (hframe : a.constants.getD position none = some frame)
    (hplan : a.plan ctx s.spent position frame = .ok site) :
    s.visit ctx a body position = s.accept a (body.lineAt position) site := by
  simp [visit, hreflective, hframe, hplan]

theorem visit_of_refusal {s : Planning} {position : Nat} {frame : Frame ConstantValue}
    {target : String} {refusal : Refusal}
    (hreflective : (a.insnAt position).isReflectiveInvoke = true)
    (hframe : a.constants.getD position none = some frame)
    (hplan : a.plan ctx s.spent position frame = .error (target, refusal)) :
    s.visit ctx a body position =
      { s with outcomes := ⟨.getMethod, body.lineAt position, target, some refusal⟩ :: s.outcomes } := by
  simp [visit, hreflective, hframe, hplan]

/-- Only the calls of `invoke` count. -/
theorem run_eq_foldl_calls (ctx : MethodContext) (a : SiteAnalysis) (body : Body) :
    run ctx a body = ((List.range a.flow.size).filter fun p =>
      (a.insnAt p).isReflectiveInvoke).foldl (visit ctx a body) ⟨[], [], ∅, ∅, body.maxLocals⟩ := by
  have hfold : ∀ (positions : List Nat) (s : Planning), positions.foldl (visit ctx a body) s =
      (positions.filter fun p => (a.insnAt p).isReflectiveInvoke).foldl (visit ctx a body) s := by
    intro positions
    induction positions with
    | nil => exact fun _ => rfl
    | cons first rest ih =>
      intro s
      cases hfirst : (a.insnAt first).isReflectiveInvoke with
      | true => simp [hfirst, ih]
      | false => simp [hfirst, ih, visit_of_not_reflective hfirst]
  exact hfold _ _

/-- A position is passed by, gets a plan, or has its call left alone. -/
theorem visit_cases (ctx : MethodContext) (a : SiteAnalysis) (body : Body) (s : Planning)
    (position : Nat) :
    s.visit ctx a body position = s ∧
        (∀ frame, ¬ a.Replaceable ctx position frame) ∨
      (∃ frame line site, (a.insnAt position).isReflectiveInvoke = true ∧
        a.constants.getD position none = some frame ∧
        a.plan ctx s.spent position frame = .ok site ∧
        s.visit ctx a body position = s.accept a line site) ∨
      ∃ frame outcome, outcome.isTransformed = false ∧
        a.constants.getD position none = some frame ∧
        (∀ site, a.plan ctx s.spent position frame ≠ .ok site) ∧
        s.visit ctx a body position = { s with outcomes := outcome :: s.outcomes } := by
  cases hreflective : (a.insnAt position).isReflectiveInvoke with
  | false =>
    refine .inl ⟨visit_of_not_reflective hreflective, fun frame h => ?_⟩
    have hcall := h.reflective
    simp [hreflective] at hcall
  | true =>
    cases hframe : a.constants.getD position none with
    | none =>
      refine .inl ⟨by simp [visit, hframe], fun frame h => ?_⟩
      have hreached := h.reached
      simp [hframe] at hreached
    | some frame =>
      cases hplan : a.plan ctx s.spent position frame with
      | ok site =>
        exact .inr (.inl ⟨frame, body.lineAt position, site, rfl, rfl, hplan,
          visit_of_plan hreflective hframe hplan⟩)
      | error rejection =>
        exact .inr (.inr ⟨frame, ⟨.getMethod, body.lineAt position, rejection.1, some rejection.2⟩,
          rfl, rfl, by simp [hplan], visit_of_refusal hreflective hframe hplan⟩)

theorem accept_replaces (s : Planning) (line : Option UInt16) (site : PlannedSite) :
    (s.accept a line site).Replaces :=
  ⟨_, List.mem_cons_self, rfl⟩

theorem visit_replaces {s : Planning} (h : s.Replaces) (position : Nat) :
    (s.visit ctx a body position).Replaces := by
  obtain ⟨o, ho, htransformed⟩ := h
  rcases visit_cases ctx a body s position with
    ⟨hvisit, _⟩ | ⟨_, line, site, _, _, _, hvisit⟩ | ⟨_, outcome, _, _, _, hvisit⟩
  · rw [hvisit]
    exact ⟨o, ho, htransformed⟩
  · rw [hvisit]
    exact accept_replaces s line site
  · exact ⟨o, by rw [hvisit]; exact List.mem_cons_of_mem _ ho, htransformed⟩

theorem visit_idle (ctx : MethodContext) (a : SiteAnalysis) (body : Body) {s : Planning} (h : s.Idle)
    (position : Nat) :
    (s.visit ctx a body position).Idle ∧ (∀ frame, ¬ a.Replaceable ctx position frame) ∨
      (s.visit ctx a body position).Replaces ∧ ∃ frame, a.Replaceable ctx position frame := by
  rcases visit_cases ctx a body s position with
    ⟨hvisit, hnone⟩ | ⟨frame, line, site, hreflective, hframe, hplan, hvisit⟩ |
      ⟨frame, outcome, houtcome, hframe, hplan, hvisit⟩
  · rw [hvisit]
    exact .inl ⟨h, hnone⟩
  · have hplanned := SiteAnalysis.planned_of_plan hplan
    obtain ⟨m, length, hm, htarget, _⟩ := hplanned.known
    exact .inr ⟨hvisit ▸ accept_replaces s line site, frame, hreflective, hframe,
      ⟨m, _, hm, htarget⟩, ⟨_, hplanned.methodCode⟩⟩
  · refine .inl ⟨?_, fun frame' h' => ?_⟩
    · rw [hvisit]
      exact ⟨h.edits, h.spent, by simpa [houtcome] using h.outcomes⟩
    · obtain ⟨m, ⟨resolved, parsed, length⟩, hm, htarget⟩ := h'.known
      obtain ⟨code, hcode⟩ := h'.removable
      obtain rfl := Option.some.inj (hframe.symm.trans h'.reached)
      exact hplan _ (SiteAnalysis.plan_of_unspent _ h.spent hm htarget hcode)

/-- As long as nothing is planned, a call gets a plan exactly if it is replaceable. -/
theorem foldl_visit_idle (ctx : MethodContext) (a : SiteAnalysis) (body : Body) {s : Planning}
    (h : s.Idle) (positions : List Nat) :
    (positions.foldl (visit ctx a body) s).Idle ∧
        (∀ p ∈ positions, ∀ frame, ¬ a.Replaceable ctx p frame) ∨
      (positions.foldl (visit ctx a body) s).Replaces ∧
        ∃ p ∈ positions, ∃ frame, a.Replaceable ctx p frame := by
  have hreplaces : ∀ (positions : List Nat) (s : Planning), s.Replaces →
      (positions.foldl (visit ctx a body) s).Replaces := by
    intro positions
    induction positions with
    | nil => exact fun _ h => h
    | cons first rest ih => exact fun s h => ih _ (visit_replaces h first)
  induction positions generalizing s with
  | nil => exact .inl ⟨h, by simp⟩
  | cons first rest ih =>
    rw [List.foldl_cons]
    rcases visit_idle ctx a body h first with
      ⟨hidle, hnone⟩ | ⟨hreplace, hsome⟩
    · rcases ih hidle with ⟨hidle', hrest⟩ | ⟨hreplace, p, hp, hsome⟩
      · exact .inl ⟨hidle', by simpa using ⟨hnone, hrest⟩⟩
      · exact .inr ⟨hreplace, p, List.mem_cons_of_mem _ hp, hsome⟩
    · exact .inr ⟨hreplaces rest _ hreplace, first, List.mem_cons_self, hsome⟩

theorem run_idle (ctx : MethodContext) (a : SiteAnalysis) (body : Body) :
    (run ctx a body).Idle ∧ (∀ p < a.flow.size, ∀ frame, ¬ a.Replaceable ctx p frame) ∨
      (run ctx a body).Replaces ∧ ∃ p < a.flow.size, ∃ frame, a.Replaceable ctx p frame := by
  have hstart : Idle ⟨[], [], ∅, ∅, body.maxLocals⟩ := ⟨rfl, by simp, by simp⟩
  have := foldl_visit_idle ctx a body hstart (List.range a.flow.size)
  simp only [List.mem_range] at this
  exact this

end Planning

namespace Body

/-- A call of the body could be replaced if no other one was. -/
def HasReplaceable (ctx : MethodContext) (body : Body) : Prop :=
  ∃ a, SiteAnalysis.run ctx.method body = .ok a ∧
    ∃ p < a.flow.size, ∃ frame, a.Replaceable ctx p frame

theorem list_of_run {m : MethodSig} {body : Body} {a : SiteAnalysis}
    (h : SiteAnalysis.run m body = .ok a) : a.flow.list = body.insns := by
  obtain ⟨constants, _, h⟩ := bind_eq_ok.mp h
  obtain ⟨sources, hsources, h⟩ := bind_eq_ok.mp h
  simp only [pure, Except.pure, Except.ok.injEq] at h
  obtain ⟨frames, _, hsources⟩ := bind_eq_ok.mp hsources
  obtain ⟨flow, hflow, hsources⟩ := bind_eq_ok.mp hsources
  obtain ⟨conditionals, _, hsources⟩ := bind_eq_ok.mp hsources
  simp only [pure, Except.pure, Except.ok.injEq] at hsources
  rw [← h, ← hsources]
  exact Flow.list_of_ofBody hflow

theorem insnAt_mem {list : InsnList} {p : Nat} (h : p < list.size) : list.insnAt p ∈ list.insns := by
  rw [InsnList.insns, InsnList.insnAt, InsnList.idAt, Array.getElem?_eq_getElem h]
  exact Array.mem_map.mpr ⟨_, Array.getElem_mem h, rfl⟩

theorem any_insns_ofInsns (insns : Array Insn) (test : Insn → Bool) :
    (InsnList.ofInsns insns).insns.any test = insns.toList.any test := by
  have hinsns : (InsnList.ofInsns insns).insns = insns := by
    refine Array.ext (by simp [InsnList.insns, InsnList.ofInsns]) fun i _ h => ?_
    simp [InsnList.insns, InsnList.ofInsns, InsnList.get, h]
  rw [hinsns, Array.any_toList]

/-- A body that can be analysed can be rewritten. -/
theorem replaceInvokes_total (ctx : MethodContext) {body : Body} {a : SiteAnalysis}
    (ha : SiteAnalysis.run ctx.method body = .ok a) :
    ∃ body' outcomes, body.replaceInvokes ctx = .ok (body', outcomes) := by
  unfold replaceInvokes
  rw [ha]
  simp only [bind, Except.bind]
  split_ifs
  · exact ⟨_, _, rfl⟩
  · exact ⟨_, _, rfl⟩
  · exact ⟨_, _, rfl⟩

/-- A body without replaceable calls stays as it is; in any other one some call is replaced. -/
theorem replaceInvokes_cases {ctx : MethodContext} {body body' : Body} {outcomes : List SiteOutcome}
    (h : body.replaceInvokes ctx = .ok (body', outcomes)) :
    ¬ body.HasReplaceable ctx ∧ body' = body ∧ (∀ o ∈ outcomes, o.isTransformed = false) ∨
      body.HasReplaceable ctx ∧ ∃ o ∈ outcomes, o.isTransformed = true := by
  unfold replaceInvokes at h
  by_cases hany : body.insns.insns.any (·.isReflectiveInvoke) = true
  · rw [if_neg (by simp [hany])] at h
    obtain ⟨a, ha, h⟩ := bind_eq_ok.mp h
    dsimp only at h
    rcases Planning.run_idle ctx a body with ⟨hidle, hnone⟩ | ⟨hreplaces, hsome⟩
    · rw [hidle.edits] at h
      simp only [List.isEmpty_nil, if_true, pure, Except.pure, Except.ok.injEq, Prod.mk.injEq] at h
      obtain ⟨rfl, rfl⟩ := h
      refine .inl ⟨?_, rfl, fun o ho => hidle.outcomes o (List.mem_reverse.mp ho)⟩
      rintro ⟨a', ha', p, hp, frame, hreplaceable⟩
      obtain rfl := Except.ok.inj (ha.symm.trans ha')
      exact hnone p hp frame hreplaceable
    · obtain ⟨o, ho, htransformed⟩ := hreplaces
      refine .inr ⟨⟨a, ha, hsome⟩, o, ?_, htransformed⟩
      split_ifs at h
      · simp only [pure, Except.pure, Except.ok.injEq, Prod.mk.injEq] at h
        rw [← h.2]
        exact List.mem_reverse.mpr ho
      · simp only [pure, Except.pure, Except.ok.injEq, Prod.mk.injEq] at h
        rw [← h.2]
        exact List.mem_reverse.mpr ho
  · rw [if_pos (by simp [hany])] at h
    simp only [pure, Except.pure, Except.ok.injEq, Prod.mk.injEq] at h
    obtain ⟨rfl, rfl⟩ := h
    refine .inl ⟨?_, rfl, by simp⟩
    rintro ⟨a, ha, p, hp, frame, hreplaceable⟩
    have hlist := list_of_run ha
    have hmem : a.insnAt p ∈ body.insns.insns := hlist ▸ insnAt_mem hp
    rw [Array.any_eq_true'] at hany
    exact hany ⟨_, hmem, hreplaceable.reflective⟩

end Body

/-! ## What is decided about each call -/

/-- The target of a call in words. -/
def ResolvedMethod.text (m : ResolvedMethod) : String := m.owner ++ "." ++ m.name ++ m.descriptor

/-- A reached call with its plan and the local that was fresh then, or with the reason why it has none. -/
structure Decision where
  position : Nat
  verdict : Except Rejection (PlannedSite × UInt16)

namespace Decision

def outcome (body : Body) (d : Decision) : SiteOutcome :=
  match d.verdict with
  | .ok (site, _) => ⟨.getMethod, body.lineAt d.position, site.resolved.text, none⟩
  | .error (target, refusal) => ⟨.getMethod, body.lineAt d.position, target, some refusal⟩

def edit? (a : SiteAnalysis) (d : Decision) : Option SiteEdit :=
  match d.verdict with
  | .ok (site, fresh) => some (site.edit a fresh)
  | .error _ => none

/-- The load of the method object, if it is all of its code. -/
def load? (d : Decision) : Option NodeId :=
  match d.verdict with
  | .ok (site, _) => site.methodLoad
  | .error _ => none

theorem isTransformed_outcome (body : Body) (a : SiteAnalysis) (d : Decision) :
    (d.outcome body).isTransformed = (d.edit? a).isSome := by
  unfold outcome edit?
  cases d.verdict <;> rfl

end Decision

/-- The positions of the calls of `invoke` that are reached. -/
def SiteAnalysis.reachedCalls (a : SiteAnalysis) : List Nat :=
  (List.range a.flow.size).filter fun p =>
    (a.insnAt p).isReflectiveInvoke && (a.constants.getD p none).isSome

namespace Planning

/-- The decisions about some calls, and what the planning has collected by then. -/
structure Decides (ctx : MethodContext) (a : SiteAnalysis) (body : Body) (calls : List Nat)
    (decisions : List Decision) (s : Planning) : Prop where
  positions : decisions.map (·.position) = calls
  outcomes : s.outcomes.reverse = decisions.map (·.outcome body)
  edits : s.edits.reverse = decisions.filterMap (·.edit? a)
  loads : ∀ id, s.loads.contains id = true → ∃ d ∈ decisions, d.load? = some id
  planned : ∀ d ∈ decisions, ∀ site fresh, d.verdict = .ok (site, fresh) →
    ∃ spent frame, a.constants.getD d.position none = some frame ∧
      a.plan ctx spent d.position frame = .ok site

variable {ctx : MethodContext} {a : SiteAnalysis} {body : Body} {calls : List Nat}
  {decisions : List Decision} {s : Planning}

/-- A decision more. -/
theorem Decides.visit (h : Decides ctx a body calls decisions s) {position : Nat}
    {frame : Frame ConstantValue} (hreflective : (a.insnAt position).isReflectiveInvoke = true)
    (hframe : a.constants.getD position none = some frame) :
    ∃ d, Decides ctx a body (calls ++ [position]) (decisions ++ [d]) (s.visit ctx a body position) := by
  cases hplan : a.plan ctx s.spent position frame with
  | ok site =>
    refine ⟨⟨position, .ok (site, s.fresh)⟩, ?_⟩
    rw [visit_of_plan hreflective hframe hplan]
    refine ⟨by simp [h.positions], ?_, ?_, fun id hid => ?_, fun d hd => ?_⟩
    · simp [accept, h.outcomes, Decision.outcome, ResolvedMethod.text]
    · simp [accept, h.edits, Decision.edit?]
    · simp only [accept, Std.HashSet.contains_insertMany_list, Bool.or_eq_true, List.contains_iff_mem,
        Option.mem_toList] at hid
      rcases hid with hid | hid
      · obtain ⟨d, hd, hload⟩ := h.loads id hid
        exact ⟨d, List.mem_append_left _ hd, hload⟩
      · exact ⟨_, List.mem_append_right _ List.mem_cons_self, hid⟩
    · rcases List.mem_append.mp hd with hd | hd
      · exact h.planned d hd
      · obtain rfl := List.mem_singleton.mp hd
        rintro site' fresh' heq
        cases heq
        exact ⟨s.spent, frame, hframe, hplan⟩
  | error rejection =>
    obtain ⟨target, refusal⟩ := rejection
    refine ⟨⟨position, .error (target, refusal)⟩, ?_⟩
    rw [visit_of_refusal hreflective hframe hplan]
    refine ⟨by simp [h.positions], by simp [h.outcomes, Decision.outcome],
      by simp [h.edits, Decision.edit?], fun id hid => ?_, fun d hd => ?_⟩
    · obtain ⟨d, hd, hload⟩ := h.loads id hid
      exact ⟨d, List.mem_append_left _ hd, hload⟩
    · rcases List.mem_append.mp hd with hd | hd
      · exact h.planned d hd
      · obtain rfl := List.mem_singleton.mp hd
        simp

theorem Decides.foldl (h : Decides ctx a body calls decisions s) (positions : List Nat) :
    ∃ more, Decides ctx a body
      (calls ++ positions.filter fun p =>
        (a.insnAt p).isReflectiveInvoke && (a.constants.getD p none).isSome)
      (decisions ++ more) (positions.foldl (Planning.visit ctx a body) s) := by
  induction positions generalizing calls decisions s with
  | nil => exact ⟨[], by simpa using h⟩
  | cons first rest ih =>
    rw [List.foldl_cons, List.filter_cons]
    by_cases hreflective : (a.insnAt first).isReflectiveInvoke = true
    · cases hframe : a.constants.getD first none with
      | some frame =>
        obtain ⟨d, hd⟩ := h.visit hreflective hframe
        obtain ⟨more, hmore⟩ := ih hd
        exact ⟨d :: more, by simpa [hreflective, hframe] using hmore⟩
      | none =>
        have hpassed : s.visit ctx a body first = s := by simp [Planning.visit, hframe]
        obtain ⟨more, hmore⟩ := ih h
        exact ⟨more, by simpa [hframe, hpassed] using hmore⟩
    · have hpassed : s.visit ctx a body first = s :=
        visit_of_not_reflective (Bool.not_eq_true _ ▸ hreflective)
      obtain ⟨more, hmore⟩ := ih h
      exact ⟨more, by simpa [hreflective, hpassed] using hmore⟩

/-- Planning decides about every reached call, in order. -/
theorem run_decides (ctx : MethodContext) (a : SiteAnalysis) (body : Body) :
    ∃ decisions, Decides ctx a body a.reachedCalls decisions (run ctx a body) := by
  have hstart : Decides ctx a body [] [] ⟨[], [], ∅, ∅, body.maxLocals⟩ :=
    ⟨rfl, rfl, rfl, by simp, by simp⟩
  obtain ⟨decisions, h⟩ := hstart.foldl (List.range a.flow.size)
  rw [List.nil_append, List.nil_append] at h
  exact ⟨decisions, h⟩

end Planning

/-! ## Reached calls -/

/-- The call of `invoke` at a position is on some path through the body. -/
def Body.ReachesCall (body : Body) (p : Nat) : Prop :=
  p < body.insns.size ∧ (body.insns.insnAt p).isReflectiveInvoke = true ∧
    ∃ flow, Flow.ofBody body = .ok flow ∧ flow.Reaches p

namespace SiteAnalysis

variable {m : MethodSig} {body : Body} {a : SiteAnalysis}

theorem flow_of_run (h : run m body = .ok a) :
    Flow.ofBody body = .ok a.flow ∧ constantFrames m body = .ok a.constants := by
  obtain ⟨constants, hconstants, h⟩ := bind_eq_ok.mp h
  obtain ⟨sources, hsources, h⟩ := bind_eq_ok.mp h
  obtain ⟨frames, _, hsources⟩ := bind_eq_ok.mp hsources
  obtain ⟨flow, hflow, hsources⟩ := bind_eq_ok.mp hsources
  obtain ⟨conditionals, _, hsources⟩ := bind_eq_ok.mp hsources
  cases hsources
  cases h
  exact ⟨hflow, hconstants⟩

theorem mem_reachedCalls (h : run m body = .ok a) (p : Nat) :
    p ∈ a.reachedCalls ↔ body.ReachesCall p := by
  obtain ⟨hflow, hconstants⟩ := flow_of_run h
  have hlist : a.flow.list = body.insns := Flow.list_of_ofBody hflow
  have hreaches := Frame.isSome_iff_reaches hconstants hflow p
  rw [reachedCalls, List.mem_filter, List.mem_range, Bool.and_eq_true, hreaches, Body.ReachesCall,
    ← hlist]
  constructor
  · rintro ⟨hinside, hreflective, hreached⟩
    exact ⟨hinside, hreflective, a.flow, hflow, hreached⟩
  · rintro ⟨hinside, hreflective, flow, hflow', hreached⟩
    obtain rfl := Except.ok.inj (hflow.symm.trans hflow')
    exact ⟨hinside, hreflective, hreached⟩

theorem reachedCalls_sorted (a : SiteAnalysis) : a.reachedCalls.Pairwise (· < ·) :=
  List.Pairwise.filter _ List.pairwise_lt_range

end SiteAnalysis

end DirectCall
