import DirectCall.Proofs.CallSite.Draft
import DirectCall.Proofs.Graph.Reach
import DirectCall.Proofs.Hierarchy.Lookup

/-!
# Replacing calls twice

A replaced call hands its argument array to nobody any more, so a second run may know an array that
the first one had to forget. The second run does nothing exactly if the first one left no call that
could be replaced on its own (`second_run_idle_iff`).
-/

namespace DirectCall

/-- A second run replaces nothing and keeps the order of the instructions exactly if the first one
replaced nothing either, or left no call that is replaceable. -/
theorem second_run_idle_iff {ctx : MethodContext} {body once twice : Body}
    {first second : List SiteOutcome} (hfirst : body.replaceInvokes ctx = .ok (once, first))
    (hsecond : once.replaceInvokes ctx = .ok (twice, second)) :
    (∀ o ∈ second, o.isTransformed = false) ∧ twice.insns.order = once.insns.order ↔
      (∀ o ∈ first, o.isTransformed = false) ∨ ¬ once.HasReplaceable ctx := by
  have hidle : (∀ o ∈ first, o.isTransformed = false) → ¬ once.HasReplaceable ctx := by
    intro hrefused
    rcases Body.replaceInvokes_cases hfirst with ⟨hnone, rfl, _⟩ | ⟨_, o, ho, htransformed⟩
    · exact hnone
    · rw [hrefused o ho] at htransformed
      simp at htransformed
  rcases Body.replaceInvokes_cases hsecond with ⟨hnone, rfl, hrefused⟩ | ⟨hsome, o, ho, htransformed⟩
  · exact ⟨fun _ => .inr hnone, fun _ => ⟨hrefused, rfl⟩⟩
  · constructor
    · rintro ⟨hrefused, _⟩
      rw [hrefused o ho] at htransformed
      simp at htransformed
    · rintro (hrefused | hnone)
      · exact absurd hsome (hidle hrefused)
      · exact absurd hsome hnone

/-! ## An array that is handed on once

A method object is looked up with an array of classes, which the first call of `invoke` gets as its
receiver. The method called is static and drops the receiver. -/

/-- The class that is called. -/
def calleeClass : ClassHeader :=
  ⟨"a/A", some objectClass, [], 0x0021,
    [⟨"g", "()V", 0x0009, []⟩, ⟨"f", "(Ljava/lang/String;)V", 0x0009, []⟩]⟩

def calleeContext : MethodContext where
  method := ⟨"a/B", "m", "()V", 0x0008⟩
  majorVersion := 61
  hierarchy := Hierarchy.freeze ((∅ : ClassTable).insert "a/A" calleeClass)
  canReference _ := true

def lookupCall : Insn :=
  .invoke Opcode.invokevirtual 0 ⟨"java/lang/Class", Insn.getMethod, Insn.lookupDescriptor⟩ false

def invokeCall : Insn :=
  .invoke Opcode.invokevirtual 0 ⟨"java/lang/reflect/Method", "invoke",
    "(Ljava/lang/Object;[Ljava/lang/Object;)Ljava/lang/Object;"⟩ false

/-- Looks `g` up and calls it on the array; then looks `f` up by the array and calls it. -/
def sharedBody : Body where
  insns := InsnList.ofInsns #[
    .op 0x04, .ofClass Opcode.anewarray "java/lang/Class", .op Opcode.dup, .op Opcode.iconst0,
    .load (.classRef "java/lang/String"), .op Opcode.aastore, .var Opcode.astore 0,
    .load (.classRef "a/A"), .load (.string "g"), .op Opcode.iconst0,
    .ofClass Opcode.anewarray "java/lang/Class", lookupCall, .var Opcode.aload 0, .op Opcode.iconst0,
    .ofClass Opcode.anewarray "java/lang/Object", invokeCall, .op Opcode.pop,
    .load (.classRef "a/A"), .load (.string "f"), .var Opcode.aload 0, lookupCall,
    .op Opcode.aconstNull, .op 0x04, .ofClass Opcode.anewarray "java/lang/Object", invokeCall,
    .op Opcode.pop, .op Opcode.returnVoid]
  regions := []
  locals := []
  maxStack := 6
  maxLocals := 1

/-- The first call is replaced; its method object and its argument array are gone. -/
def sharedOnce : Body :=
  { sharedBody with
    insns := ⟨sharedBody.insns.nodes ++ #[.op Opcode.pop,
        .call Opcode.invokestatic ⟨"a/A", "g", "()V"⟩ false, .op Opcode.aconstNull],
      (#[0, 1, 2, 3, 4, 5, 6, 12, 27, 28, 29, 16, 17, 18, 19, 20, 21, 22, 23, 24, 25, 26] :
        Array Nat).map NodeId.mk⟩ }

theorem callee_class? : calleeContext.hierarchy.class? "a/A" = some calleeClass := by
  simp [calleeContext, Hierarchy.class?, Hierarchy.freeze]

theorem target_of_resolve {ctx : MethodContext} {m : MethodLookup} {resolved : ResolvedMethod}
    {parsed : MethodDescriptor} {site : Option NodeId} {component : String} {length : Int32}
    {slots : List (Int32 × ConstantValue)} (hname : m.methodName.startsWith "<" = false)
    (hdeclared : m.declaredOnly = false)
    (hresolve : ctx.hierarchy.resolve m.className m.methodName m.params = some resolved)
    (hparse : MethodDescriptor.parse resolved.descriptor = .ok parsed)
    (hlength : length.toInt = parsed.params.length) (hvisible : ctx.canReference resolved.owner = true)
    (hinterface : resolved.ownerIsInterface = false) :
    ctx.target m (some (.array site component length slots)) = .ok (resolved, parsed, length) := by
  have hfound : ctx.resolve m = .ok resolved := by
    simp [MethodContext.resolve, hdeclared, hresolve, Hierarchy.isDeclaredOnly]
  simp [MethodContext.target, hname, hfound, hparse, hlength, hvisible, hinterface, bind,
    Except.bind, pure, Except.pure]

/-- The methods of the class that is called. -/
def calleeG : MethodHeader := ⟨"g", "()V", 0x0009, []⟩

def calleeF : MethodHeader := ⟨"f", "(Ljava/lang/String;)V", 0x0009, []⟩

theorem calleeG_parse : MethodDescriptor.parse calleeG.descriptor = .ok ⟨[], "V"⟩ := by rfl

theorem calleeF_parse :
    MethodDescriptor.parse calleeF.descriptor = .ok ⟨["Ljava/lang/String;"], "V"⟩ := by rfl

theorem callee_visible : Hierarchy.visible true calleeClass = [calleeG, calleeF] := by decide

theorem callee_resolve_g :
    calleeContext.hierarchy.resolve "a/A" "g" [] =
      some (Candidate.resolved ⟨calleeClass, calleeG⟩) := by
  refine Hierarchy.resolve_of_single
    (Hierarchy.publicCandidates_of_matching callee_class? ?_ (List.cons_ne_nil _ _) lookupDepth)
  have hg : calleeContext.hierarchy.isMatch "g" [] calleeG = some true :=
    Hierarchy.isMatch_exact rfl (by simp) calleeG_parse rfl
  have hf : calleeContext.hierarchy.isMatch "g" [] calleeF = some false := by
    simp [Hierarchy.isMatch, calleeF]
  rw [callee_visible]
  simp [Hierarchy.matching, hg, hf]

theorem callee_resolve_f :
    calleeContext.hierarchy.resolve "a/A" "f" ["Ljava/lang/String;"] =
      some (Candidate.resolved ⟨calleeClass, calleeF⟩) := by
  refine Hierarchy.resolve_of_single
    (Hierarchy.publicCandidates_of_matching callee_class? ?_ (List.cons_ne_nil _ _) lookupDepth)
  have hg : calleeContext.hierarchy.isMatch "f" ["Ljava/lang/String;"] calleeG = some false := by
    simp [Hierarchy.isMatch, calleeG]
  have hf : calleeContext.hierarchy.isMatch "f" ["Ljava/lang/String;"] calleeF = some true :=
    Hierarchy.isMatch_exact rfl (by simp) calleeF_parse rfl
  rw [callee_visible]
  simp [Hierarchy.matching, hg, hf]

theorem target_g (id : NodeId) (component : String) :
    calleeContext.target ⟨id, "a/A", "g", [], false⟩ (some (.array none component 0 [])) =
      .ok (Candidate.resolved ⟨calleeClass, calleeG⟩, ⟨[], "V"⟩, 0) :=
  target_of_resolve (by simp) rfl callee_resolve_g calleeG_parse rfl rfl rfl

theorem target_f (id : NodeId) (site : Option NodeId) (component : String) :
    calleeContext.target ⟨id, "a/A", "f", ["Ljava/lang/String;"], false⟩
        (some (.array site component 1 [])) =
      .ok (Candidate.resolved ⟨calleeClass, calleeF⟩, ⟨["Ljava/lang/String;"], "V"⟩, 1) :=
  target_of_resolve (by simp) rfl callee_resolve_f calleeF_parse rfl rfl rfl

/-! ### The first run -/

def sharedAnalysis : SiteAnalysis :=
  (SiteAnalysis.run calleeContext.method sharedBody).toOption.get (by decide +kernel)

theorem sharedAnalysis_run :
    SiteAnalysis.run calleeContext.method sharedBody = .ok sharedAnalysis :=
  eq_ok_get _

/-- The frame ahead of the first call; the array is known. -/
def sharedFrameG : Frame ConstantValue :=
  ⟨#[.array (some ⟨1⟩) "java/lang/Class" 1 [(0, .classRef "java/lang/String")]],
    [.array none "java/lang/Object" 0 [],
      .array (some ⟨1⟩) "java/lang/Class" 1 [(0, .classRef "java/lang/String")],
      .method ⟨⟨11⟩, "a/A", "g", [], false⟩]⟩

/-- The frame ahead of the second call; the array is forgotten. -/
def sharedFrameF : Frame ConstantValue :=
  ⟨#[.unknown .single],
    [.array (some ⟨23⟩) "java/lang/Object" 1 [], .unknown .single, .unknown .single]⟩

/-- The plan for the first call. -/
def sharedSite : PlannedSite :=
  ⟨15, Candidate.resolved ⟨calleeClass, calleeG⟩, ⟨[], "V"⟩, ⟨7, 12⟩, none, .none (some ⟨13, 15⟩)⟩

theorem sharedAnalysis_evidence :
    sharedAnalysis.sources.evidence 15 [0] = [7, 8, 9, 10, 11] ∧
      sharedAnalysis.sources.evidence 15 [2] = [13, 14] := by
  have hall : [[0], [2]].map (sharedAnalysis.sources.evidence 15) = [[7, 8, 9, 10, 11], [13, 14]] :=
    SourceAnalysis.evidence_map_of_reachWithin 100 (by decide +kernel)
  simpa using hall

/-- What the first run learns of the two calls. -/
theorem sharedAnalysis_calls :
    ((List.range sharedAnalysis.flow.size).filter fun p =>
        (sharedAnalysis.insnAt p).isReflectiveInvoke) = [15, 24] ∧
      sharedAnalysis.constants.getD 15 none = some sharedFrameG ∧
      sharedAnalysis.constants.getD 24 none = some sharedFrameF ∧
      sharedAnalysis.methodCode? 15 = some ⟨7, 12⟩ ∧
      sharedAnalysis.methodLoad? ⟨7, 12⟩ = none ∧
      sharedAnalysis.arguments 15 0 = .none (some ⟨13, 15⟩) ∧
      (sharedSite.edit sharedAnalysis 1).orderAfter [⟨27⟩, ⟨28⟩, ⟨29⟩]
        sharedBody.insns.order.toList = sharedOnce.insns.order.toList := by
  obtain ⟨hmethod, harray⟩ := sharedAnalysis_evidence
  simp only [SiteAnalysis.methodCode?, SiteAnalysis.arguments, SiteAnalysis.spanOf,
    SiteAnalysis.spanOfSlots, hmethod, harray]
  decide +kernel

theorem sharedSite_plan {spent : Std.HashSet Nat} (hspent : ∀ p, spent.contains p = false) :
    sharedAnalysis.plan calleeContext spent 15 sharedFrameG = .ok sharedSite := by
  obtain ⟨_, _, _, hcode, hload, harguments, _⟩ := sharedAnalysis_calls
  have hplan := SiteAnalysis.plan_of_unspent sharedFrameG hspent rfl
    (target_g ⟨11⟩ "java/lang/Object") hcode
  rw [hload, harguments] at hplan
  exact hplan

theorem isReflectiveInvoke_of_mem {a : SiteAnalysis} {calls : List Nat} {p : Nat}
    (hcalls : ((List.range a.flow.size).filter fun p => (a.insnAt p).isReflectiveInvoke) = calls)
    (hp : p ∈ calls) : (a.insnAt p).isReflectiveInvoke = true := by
  rw [← hcalls, List.mem_filter] at hp
  exact hp.2

theorem sharedBody_planning :
    ∃ s, Planning.run calleeContext sharedAnalysis sharedBody = s ∧
      s.edits = [sharedSite.edit sharedAnalysis 1] ∧ s.loads.isEmpty = true ∧ s.fresh = 1 ∧
      s.outcomes.reverse = [⟨.getMethod, none, "a/A.g()V", none⟩,
        ⟨.getMethod, none, "?", some .nonConstantLookup⟩] := by
  obtain ⟨hcalls, hframeG, hframeF, _⟩ := sharedAnalysis_calls
  have hg := isReflectiveInvoke_of_mem hcalls (p := 15) (by simp)
  have hf := isReflectiveInvoke_of_mem hcalls (p := 24) (by simp)
  rw [Planning.run_eq_foldl_calls, hcalls]
  simp only [List.foldl_cons, List.foldl_nil]
  rw [Planning.visit_of_plan hg hframeG (sharedSite_plan (by simp)),
    Planning.visit_of_refusal hf hframeF rfl]
  refine ⟨_, rfl, rfl, ?_, rfl, ?_⟩
  · simp [Planning.accept, sharedSite]
  · decide +kernel

theorem sharedBody_first_run :
    sharedBody.replaceInvokes calleeContext = .ok (sharedOnce, [⟨.getMethod, none, "a/A.g()V", none⟩,
      ⟨.getMethod, none, "?", some .nonConstantLookup⟩]) := by
  obtain ⟨s, hs, hedits, hloads, hfresh, houtcomes⟩ := sharedBody_planning
  obtain ⟨_, _, _, _, _, _, horder⟩ := sharedAnalysis_calls
  have hsite : (sharedSite.edit sharedAnalysis 1).atSite = [.op Opcode.pop,
      .call Opcode.invokestatic ⟨"a/A", "g", "()V"⟩ false, .op Opcode.aconstNull] := by rfl
  have hids : sharedBody.insns.freshIds 3 = [⟨27⟩, ⟨28⟩, ⟨29⟩] := by rfl
  have hany : sharedBody.insns.insns.any (·.isReflectiveInvoke) = true :=
    (Body.any_insns_ofInsns _ _).trans rfl
  rw [Body.replaceInvokes_of_single hany sharedAnalysis_run (hs ▸ hedits) rfl
    (hs ▸ hloads) (InsnList.ofInsns_proper _), hs, hfresh, houtcomes, hsite]
  simp only [List.length_cons, List.length_nil, Nat.zero_add, Nat.reduceAdd, hids, horder]
  rfl

/-! ### The second run -/

def onceAnalysis : SiteAnalysis :=
  (SiteAnalysis.run calleeContext.method sharedOnce).toOption.get (by decide +kernel)

theorem onceAnalysis_run : SiteAnalysis.run calleeContext.method sharedOnce = .ok onceAnalysis :=
  eq_ok_get _

/-- The frame ahead of the second call in the new body. -/
def onceFrame : Frame ConstantValue :=
  ⟨#[.unknown .single], [.array (some ⟨23⟩) "java/lang/Object" 1 [], .unknown .single,
    .method ⟨⟨20⟩, "a/A", "f", ["Ljava/lang/String;"], false⟩]⟩

theorem onceAnalysis_evidence : onceAnalysis.sources.evidence 19 [0] = [12, 13, 14, 15] :=
  SourceAnalysis.evidence_of_reachWithin 100 (by decide +kernel)

/-- What the second run learns of the call that is left. -/
theorem onceAnalysis_call :
    19 < onceAnalysis.flow.size ∧ (onceAnalysis.insnAt 19).isReflectiveInvoke = true ∧
      onceAnalysis.constants.getD 19 none = some onceFrame ∧
      onceAnalysis.methodCode? 19 = some ⟨12, 16⟩ := by
  simp only [SiteAnalysis.methodCode?, SiteAnalysis.spanOf, SiteAnalysis.spanOfSlots,
    onceAnalysis_evidence]
  decide +kernel

/-- The call that was refused has become replaceable. -/
theorem sharedOnce_hasReplaceable : sharedOnce.HasReplaceable calleeContext := by
  obtain ⟨hinside, hreflective, hframe, hcode⟩ := onceAnalysis_call
  exact ⟨onceAnalysis, onceAnalysis_run, 19, hinside, onceFrame, hreflective, hframe,
    ⟨_, _, rfl, target_f ⟨20⟩ (some ⟨23⟩) "java/lang/Object"⟩, ⟨12, 16⟩, hcode⟩

/-- The second run on the body with the shared array is not idle. -/
theorem second_run_idle_iff_shared :
    ∃ twice second, sharedOnce.replaceInvokes calleeContext = .ok (twice, second) ∧
      ¬ ((∀ o ∈ second, o.isTransformed = false) ∧ twice.insns.order = sharedOnce.insns.order) := by
  obtain ⟨twice, second, hsecond⟩ :=
    Body.replaceInvokes_total calleeContext onceAnalysis_run
  refine ⟨twice, second, hsecond, fun hidle => ?_⟩
  rcases (second_run_idle_iff sharedBody_first_run hsecond).mp hidle with hrefused | hnone
  · simpa [SiteOutcome.isTransformed] using hrefused ⟨.getMethod, none, "a/A.g()V", none⟩ (by simp)
  · exact hnone sharedOnce_hasReplaceable

/-- A second run may find more to do. -/
theorem not_forall_second_run_idle :
    ¬ ∀ (ctx : MethodContext) (body once twice : Body) (first second : List SiteOutcome),
      body.replaceInvokes ctx = .ok (once, first) → once.replaceInvokes ctx = .ok (twice, second) →
        (∀ o ∈ second, o.isTransformed = false) ∧ twice.insns.order = once.insns.order := by
  intro hclaim
  obtain ⟨twice, second, hsecond⟩ :=
    Body.replaceInvokes_total calleeContext onceAnalysis_run
  obtain ⟨hrefused, _⟩ := hclaim calleeContext sharedBody sharedOnce twice _ second
    sharedBody_first_run hsecond
  rcases Body.replaceInvokes_cases hsecond with ⟨hnone, _⟩ | ⟨_, o, ho, htransformed⟩
  · exact hnone sharedOnce_hasReplaceable
  · rw [hrefused o ho] at htransformed
    simp at htransformed

end DirectCall
