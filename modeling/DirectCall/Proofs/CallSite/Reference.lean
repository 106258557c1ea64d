import DirectCall.Proofs.CallSite.Place
import DirectCall.Proofs.CallSite.Repeat

/-!
# Classes that new code names

A call is replaced only if its method may be called from here: it is public, no constructor, takes as
many arguments as the array has, and its class may be referenced. But the arguments are cast to the types
of the parameters, and nobody asks whether their classes may be referenced. So new code refers to what it
may refer to exactly if the parameter types of the called methods happen to be visible
(`refersWell_iff`).
-/

namespace DirectCall

/-! ## Which class an instruction names -/

/-- The class that a class constant names; for an array type the class of its elements. -/
def ClassName.element? (name : String) : Option String :=
  match name.toList with
  | '[' :: rest => Descriptor.className? (String.ofList (rest.dropWhile (· = '[')))
  | _ => some name

/-- The class that an instruction names. -/
def Insn.namedClass? : Insn → Option String
  | field _ _ member => ClassName.element? member.owner
  | invoke _ _ member _ => ClassName.element? member.owner
  | type _ _ className => ClassName.element? className
  | multiNewArray _ descriptor _ => ClassName.element? descriptor
  | ldc _ (.classRef name) => ClassName.element? name
  | _ => none

/-- The class may be named: it may be referenced, or is not known, or is there for all code. -/
def MethodContext.MayName (ctx : MethodContext) (className : String) : Prop :=
  (ctx.hierarchy.class? className).isSome = true → className ≠ objectClass →
    Primitive.ofWrapper? className = none → ctx.canReference className = true

namespace Body

/-- A call that took the place of the one at a position calls a method that may be called like that. -/
structure CallsWell (ctx : MethodContext) (body body' : Body) (frame : Frame ConstantValue)
    (resolved : ResolvedMethod) (parsed : MethodDescriptor) : Prop where
  found : ∃ m, frame.peek? 2 = some (.method m) ∧ ctx.resolve m = .ok resolved
  isPublic : resolved.isPublic = true
  isMethod : resolved.name.startsWith "<" = false
  parses : MethodDescriptor.parse resolved.descriptor = .ok parsed
  /-- The array has an element for each parameter. -/
  arguments : ∃ site component length slots,
    frame.peek? 0 = some (.array site component length slots) ∧ length.toInt = parsed.params.length
  version : resolved.isStatic = true → resolved.ownerIsInterface = true → 52 ≤ ctx.majorVersion
  called : ∃ id ∈ body'.insns.order, id ∉ body.insns.order ∧ body'.insns.get id =
    .call resolved.callOpcode resolved.member resolved.ownerIsInterface

/-- New code refers to what it may refer to. -/
structure RefersWell (ctx : MethodContext) (body body' : Body) : Prop where
  names : ∀ id ∈ body'.insns.order, id ∉ body.insns.order → ∀ className,
    (body'.insns.get id).namedClass? = some className → ctx.MayName className
  calls : ∀ p, body.ReplacedAt body' p → ∃ a frame resolved parsed,
    SiteAnalysis.run ctx.method body = .ok a ∧ a.constants.getD p none = some frame ∧
      body.CallsWell ctx body' frame resolved parsed

/-- The classes of the called method and of its parameter types may be named. -/
def TypesVisible (ctx : MethodContext) (body : Body) (p : Nat) : Prop :=
  ∀ a frame m resolved parsed length, SiteAnalysis.run ctx.method body = .ok a →
    a.constants.getD p none = some frame → frame.peek? 2 = some (.method m) →
    ctx.target m (frame.peek? 0) = .ok (resolved, parsed, length) →
    ∀ name ∈ resolved.owner :: parsed.params.filterMap Descriptor.className?, ∀ className,
      ClassName.element? name = some className → ctx.MayName className

end Body

/-! ## What the code of a call names -/

theorem Insn.namedClass?_of_isPlain {insn : Insn} (h : insn.IsPlain) : insn.namedClass? = none := by
  cases insn with
  | ldc index constant => cases constant <;> simp_all [IsPlain, namedClass?]
  | _ => simp_all [IsPlain, namedClass?]

/-- Wrapper classes are there for all code. -/
theorem MethodContext.mayName_wrapper (ctx : MethodContext) {k : Primitive} {className : String}
    (h : ClassName.element? k.wrapper = some className) : ctx.MayName className := by
  have helement : ClassName.element? k.wrapper = some k.wrapper := by cases k <;> rfl
  have hwrapper : Primitive.ofWrapper? k.wrapper ≠ none := by cases k <;> decide
  rw [helement, Option.some.injEq] at h
  subst h
  exact fun _ _ hnone => absurd hnone hwrapper

/-- A type that is not primitive has no primitive descriptor. -/
theorem Primitive.ofDescriptor?_of_className? {param name : String}
    (h : Descriptor.className? param = some name) : Primitive.ofDescriptor? param = none := by
  rw [Option.eq_none_iff_forall_ne_some]
  intro k hk
  have hparam := List.find?_some hk
  simp only [decide_eq_true_eq] at hparam
  rw [← hparam] at h
  revert h
  cases k <;> simp [Descriptor.className?, Primitive.descriptor, Primitive.letter]

namespace PlannedSite

variable {p : PlannedSite}

/-- The names that a call and the casts around it give are those of the class of the method and of the
parameter types. -/
theorem name_of_mem_callCode {var : Option UInt16} {insn : Insn} (h : insn ∈ p.callCode var)
    {className : String} (hnamed : insn.namedClass? = some className) (ctx : MethodContext) :
    ctx.MayName className ∨
      ∃ name ∈ p.resolved.owner :: p.parsed.params.filterMap Descriptor.className?,
        ClassName.element? name = some className := by
  rcases mem_callCode h with rfl | hadapts
  · exact .inr ⟨p.resolved.owner, List.mem_cons_self, hnamed⟩
  · cases hadapts with
    | plain hplain => simp [Insn.namedClass?_of_isPlain hplain] at hnamed
    | receiver => exact .inr ⟨p.resolved.owner, List.mem_cons_self, hnamed⟩
    | argument hparam hmem =>
      rcases Insn.mem_unbox hmem with ⟨k, _, rfl | rfl⟩ | ⟨name, _, hclass, _, rfl⟩
      · exact .inl (ctx.mayName_wrapper hnamed)
      · exact .inl (ctx.mayName_wrapper hnamed)
      · exact .inr ⟨name, List.mem_cons_of_mem _ (List.mem_filterMap.mpr ⟨_, hparam, hclass⟩), hnamed⟩
    | result hmem =>
      rcases Insn.mem_box hmem with rfl | ⟨k, _, rfl⟩
      · simp [Insn.namedClass?] at hnamed
      · exact .inl (ctx.mayName_wrapper hnamed)

/-- Each argument is cast to the type of its parameter. -/
theorem cast_mem_callCode {param name : String} (hparam : param ∈ p.parsed.params)
    (hclass : Descriptor.className? param = some name) (hobject : name ≠ objectClass) (var : UInt16) :
    .ofClass Opcode.checkcast name ∈ p.callCode (some var) := by
  have hcast : .ofClass Opcode.checkcast name ∈ Insn.unbox param := by
    simp [Insn.unbox, Primitive.ofDescriptor?_of_className? hclass, hclass, hobject]
  obtain ⟨index, hindex, rfl⟩ := List.mem_iff_getElem.mp hparam
  have hzip : (p.parsed.params[index], index) ∈
      p.parsed.params.zip (List.range p.parsed.params.length) := by
    rw [List.mem_iff_getElem]
    exact ⟨index, by simpa using hindex, by simp⟩
  rw [callCode_eq]
  refine List.mem_append_left _ (List.mem_append_right _ ?_)
  exact List.mem_flatMap.mpr ⟨_, hzip, List.mem_append_right _ hcast⟩

end PlannedSite

/-! ## The method that is called -/

/-- A method is found only if it is public and has the name asked for. -/
theorem MethodContext.resolve_public {ctx : MethodContext} {m : MethodLookup} {resolved : ResolvedMethod}
    (h : ctx.resolve m = .ok resolved) : resolved.isPublic = true ∧ resolved.name = m.methodName := by
  unfold MethodContext.resolve at h
  cases hdeclared : m.declaredOnly with
  | false =>
    simp only [hdeclared, Hierarchy.isDeclaredOnly, Bool.false_and, Bool.false_eq_true, if_false] at h
    split at h
    · rename_i found hfound
      obtain rfl := Except.ok.inj h
      exact Hierarchy.resolve_public hfound
    · simp at h
  | true =>
    simp only [hdeclared, Hierarchy.isDeclaredOnly, Bool.true_and, if_true] at h
    split_ifs at h with hprivate
    split at h
    · rename_i found hfound
      obtain rfl := Except.ok.inj h
      rw [hfound] at hprivate
      exact ⟨by simpa using hprivate, Hierarchy.resolveDeclared_name hfound⟩
    · simp at h

namespace Replacement

variable {ctx : MethodContext} {a : SiteAnalysis} {body body' : Body} {decisions : List Decision}
  {plan : EditPlan} (h : Replacement ctx a body body' decisions plan)

include h

/-- The method that a replaced call is replaced by a call of. -/
theorem exists_target (hproper : body.insns.Proper) {p : Nat} (hp : body.ReplacedAt body' p) :
    ∃ frame m site length, a.constants.getD p none = some frame ∧
      frame.peek? 2 = some (.method m) ∧
      ctx.Targets m (frame.peek? 0) site.resolved site.parsed length ∧
      ∃ d ∈ Draft.ofEdits body.insns.nodes.size (a.edits decisions), a.Carries site d.edit := by
  obtain ⟨c, hc, rfl, d, hd, hedit⟩ := h.exists_draft hproper hp
  obtain ⟨site, fresh, hverdict, _, hcarries, _⟩ := h.carries_of_edit hc hedit
  obtain ⟨spent, frame, hframe, hplan⟩ := h.planned c hc site fresh hverdict
  obtain ⟨m, length, hm, htarget, _⟩ := (SiteAnalysis.planned_of_plan hplan).known
  exact ⟨frame, m, site, length, hframe, hm, MethodContext.targets_of_target htarget, d, hd, hcarries⟩

theorem callsWell (hproper : body.insns.Proper) {p : Nat} (hp : body.ReplacedAt body' p) :
    ∃ frame resolved parsed, a.constants.getD p none = some frame ∧
      body.CallsWell ctx body' frame resolved parsed := by
  obtain ⟨frame, m, site, length, hframe, hm, htargets, d, hd, hcarries⟩ := h.exists_target hproper hp
  obtain ⟨first, var, hatSite, _⟩ := hcarries.atSite
  obtain ⟨hpublic, hname⟩ := MethodContext.resolve_public htargets.resolves
  obtain ⟨source, component, slots, harray⟩ := htargets.array
  refine ⟨frame, site.resolved, site.parsed, hframe, ⟨m, hm, htargets.resolves⟩, hpublic, ?_,
    htargets.parses, ⟨source, component, length, slots, harray, htargets.length⟩, htargets.version, ?_⟩
  · rw [hname]
    exact htargets.plain
  · obtain ⟨id, hid, hout, _, hget⟩ := h.exists_new hproper hd
      (hatSite ▸ List.mem_append_right first (site.directCall_mem_callCode var))
    exact ⟨id, hid, hout, hget⟩

/-- What new code names is asked for by the called methods. -/
theorem names_of_typesVisible (hproper : body.insns.Proper)
    (hvisible : ∀ p, body.ReplacedAt body' p → body.TypesVisible ctx p) {id : NodeId}
    (hid : id ∈ body'.insns.order) (hnew : id ∉ body.insns.order) {className : String}
    (hnamed : (body'.insns.get id).namedClass? = some className) : ctx.MayName className := by
  rcases (h.mem_order_cases hid).resolve_left hnew with ⟨var, hstore⟩ | ⟨d, hd, hblock⟩
  · simp [hstore, Insn.namedClass?] at hnamed
  · obtain ⟨c, hc, hedit, _⟩ := h.exists_decision (mem_edits hd)
    obtain ⟨site, fresh, hverdict, _, hcarries, _⟩ := h.carries_of_edit hc hedit
    obtain ⟨spent, frame, hframe, hplan⟩ := h.planned c hc site fresh hverdict
    obtain ⟨m, length, hm, htarget, _⟩ := (SiteAnalysis.planned_of_plan hplan).known
    obtain ⟨hinside, hreflective⟩ := h.call_lt hc
    have hgone := (h.gone_iff hproper hinside hreflective).mpr
      ⟨d.edit, mem_edits hd, h.site_of_edit hc hedit⟩
    obtain ⟨first, var, hatSite, hfirst, _⟩ := hcarries.atSite
    have hinsn := List.mem_map_of_mem hblock (f := body'.insns.get)
    rw [(h.map_get hd).2, hatSite] at hinsn
    rcases List.mem_append.mp hinsn with hinsn | hinsn
    · have hplain : ∀ insn ∈ first, insn.IsPlain := by
        rcases hfirst with rfl | rfl | ⟨_, rfl⟩ <;> simp [Insn.IsPlain]
      simp [Insn.namedClass?_of_isPlain (hplain _ hinsn)] at hnamed
    · rcases PlannedSite.name_of_mem_callCode hinsn hnamed ctx with hmay | ⟨name, hname, helement⟩
      · exact hmay
      · exact hvisible c.position ⟨hinside, hreflective, hgone⟩ a frame m _ _ length h.analysis hframe hm
          htarget name hname className helement

/-- The called methods ask for what new code names. -/
theorem typesVisible_of_names (hproper : body.insns.Proper)
    (hnames : ∀ id ∈ body'.insns.order, id ∉ body.insns.order → ∀ className,
      (body'.insns.get id).namedClass? = some className → ctx.MayName className)
    {p : Nat} (hp : body.ReplacedAt body' p) : body.TypesVisible ctx p := by
  intro a' frame' m' resolved parsed length' ha' hframe' hm' htarget' name hname className helement
  obtain rfl := Except.ok.inj (h.analysis.symm.trans ha')
  obtain ⟨frame, m, site, length, hframe, hm, htargets, d, hd, hcarries⟩ := h.exists_target hproper hp
  obtain rfl := Option.some.inj (hframe.symm.trans hframe')
  obtain rfl := ConstantValue.method.inj (Option.some.inj (hm.symm.trans hm'))
  obtain ⟨rfl, rfl⟩ := htargets.unique (MethodContext.targets_of_target htarget')
  obtain ⟨first, var, hatSite, _, hlocal⟩ := hcarries.atSite
  have hnew : ∀ insn ∈ site.callCode var, ∀ c, insn.namedClass? = some c → ctx.MayName c := by
    intro insn hinsn c hnamed
    obtain ⟨id, hid, hout, _, rfl⟩ :=
      h.exists_new hproper hd (hatSite ▸ List.mem_append_right first hinsn)
    exact hnames id hid hout c hnamed
  rcases List.mem_cons.mp hname with rfl | hparam
  · exact hnew site.directCall (site.directCall_mem_callCode var) className helement
  · obtain ⟨param, hparam, hclass⟩ := List.mem_filterMap.mp hparam
    by_cases hobject : name = objectClass
    · -- Nothing is cast to the class of all objects.
      subst hobject
      obtain rfl := Option.some.inj helement
      exact fun _ hne _ => absurd rfl hne
    · cases var with
      | none => simp [hlocal rfl] at hparam
      | some var => exact hnew _ (site.cast_mem_callCode hparam hclass hobject var) className helement

end Replacement

/-- New code refers to what it may refer to exactly if the classes of the parameter types of the called
methods may be named. -/
theorem refersWell_iff {ctx : MethodContext} {body body' : Body} {outcomes : List SiteOutcome}
    (hproper : body.insns.Proper) (h : body.replaceInvokes ctx = .ok (body', outcomes)) :
    body.RefersWell ctx body' ↔ ∀ p, body.ReplacedAt body' p → body.TypesVisible ctx p := by
  rcases Body.replacement_of_replaceInvokes hproper h with ⟨rfl, _, _⟩ | ⟨a, decisions, plan, hplan, _⟩
  · have hstays : ∀ p, ¬ body'.ReplacedAt body' p :=
      fun p hp => hp.2.2 (InsnList.mem_order.mpr ⟨p, hp.1, rfl⟩)
    exact ⟨fun _ p hp => absurd hp (hstays p),
      fun _ => ⟨fun id hid hnew => absurd hid hnew, fun p hp => absurd hp (hstays p)⟩⟩
  · constructor
    · exact fun hrefers p hp => hplan.typesVisible_of_names hproper hrefers.names hp
    · intro hvisible
      refine ⟨fun id hid hnew className hnamed =>
        hplan.names_of_typesVisible hproper hvisible hid hnew hnamed, fun p hp => ?_⟩
      obtain ⟨frame, resolved, parsed, hframe, hcalls⟩ := hplan.callsWell hproper hp
      exact ⟨a, frame, resolved, parsed, hplan.analysis, hframe, hcalls⟩

/-! ## A parameter of a hidden class

The method is looked up as one that takes any object, and found to take objects of a class that may not
be referenced. -/

def hiddenClass : ClassHeader := ⟨"b/B", some objectClass, [], 0x0020, []⟩

def takerMethod : MethodHeader := ⟨"f", "(Lb/B;)V", 0x0009, []⟩

def takerClass : ClassHeader := ⟨"a/A", some objectClass, [], 0x0021, [takerMethod]⟩

def takerContext : MethodContext where
  method := calleeContext.method
  majorVersion := 52
  hierarchy := Hierarchy.freeze (((∅ : ClassTable).insert "b/B" hiddenClass).insert "a/A" takerClass)
  canReference className := className == "a/A" || className == objectClass

/-- Looks the method up and calls it; nothing in the body names the class of its parameter. -/
def takerBody : Body where
  insns := InsnList.ofInsns #[
    .op 0x04, .ofClass Opcode.anewarray "java/lang/Class", .op Opcode.dup, .op Opcode.iconst0,
    .load (.classRef objectClass), .op Opcode.aastore, .var Opcode.astore 0,
    .load (.classRef "a/A"), .load (.string "f"), .var Opcode.aload 0, lookupCall,
    .op Opcode.aconstNull, .op 0x04, .ofClass Opcode.anewarray "java/lang/Object", invokeCall,
    .op Opcode.pop, .op Opcode.returnVoid]
  regions := []
  locals := []
  maxStack := 16
  maxLocals := 1

theorem taker_class? : takerContext.hierarchy.class? "a/A" = some takerClass := by
  simp [takerContext, Hierarchy.class?, Hierarchy.freeze]

theorem takerMethod_parse :
    MethodDescriptor.parse takerMethod.descriptor = .ok ⟨["Lb/B;"], "V"⟩ := by rfl

theorem taker_target (id : NodeId) (site : Option NodeId) (component : String) :
    takerContext.target ⟨id, "a/A", "f", ["Ljava/lang/Object;"], false⟩ (some (.array site component 1 [])) =
      .ok (Candidate.resolved ⟨takerClass, takerMethod⟩, ⟨["Lb/B;"], "V"⟩, 1) := by
  refine target_of_resolve (by simp) rfl ?_ takerMethod_parse rfl rfl rfl
  refine Hierarchy.resolve_of_single
    (Hierarchy.publicCandidates_of_matching taker_class? ?_ (List.cons_ne_nil _ _) lookupDepth)
  have hvisible : Hierarchy.visible true takerClass = [takerMethod] := by decide
  have hassignable : takerContext.hierarchy.isAssignable "Ljava/lang/Object;" "Lb/B;" = some true :=
    takerContext.hierarchy.isSubtype_object "b/B"
  have hmatch : takerContext.hierarchy.isMatch "f" ["Ljava/lang/Object;"] takerMethod = some true := by
    have hname : takerMethod.name = "f" := rfl
    simp [Hierarchy.isMatch, hname, takerMethod_parse, Hierarchy.paramsMatch, hassignable]
  rw [hvisible]
  simp [Hierarchy.matching, hmatch]

def takerAnalysis : SiteAnalysis :=
  (SiteAnalysis.run takerContext.method takerBody).toOption.get (by decide +kernel)

theorem takerAnalysis_run : SiteAnalysis.run takerContext.method takerBody = .ok takerAnalysis :=
  eq_ok_get _

/-- The frame ahead of the call. -/
def takerFrame : Frame ConstantValue :=
  ⟨#[.unknown .single], [.array (some ⟨13⟩) "java/lang/Object" 1 [], .unknown .single,
    .method ⟨⟨10⟩, "a/A", "f", ["Ljava/lang/Object;"], false⟩]⟩

theorem takerAnalysis_evidence : takerAnalysis.sources.evidence 14 [0] = [7, 8, 9, 10] :=
  SourceAnalysis.evidence_of_reachWithin 100 (by decide +kernel)

/-- What is known of the call. -/
theorem takerAnalysis_call :
    14 < takerAnalysis.flow.size ∧ (takerAnalysis.insnAt 14).isReflectiveInvoke = true ∧
      takerAnalysis.constants.getD 14 none = some takerFrame ∧
      takerAnalysis.methodCode? 14 = some ⟨7, 11⟩ := by
  simp only [SiteAnalysis.methodCode?, SiteAnalysis.spanOf, SiteAnalysis.spanOfSlots,
    takerAnalysis_evidence]
  decide +kernel

/-- The call is replaced. -/
theorem takerBody_replaced :
    ∃ body' outcomes, takerBody.replaceInvokes takerContext = .ok (body', outcomes) ∧
      takerBody.ReplacedAt body' 14 := by
  obtain ⟨body', outcomes, h⟩ := Body.replaceInvokes_total takerContext takerAnalysis_run
  obtain ⟨hinside, hreflective, hframe, hcode⟩ := takerAnalysis_call
  have hsome : takerBody.HasReplaceable takerContext :=
    ⟨takerAnalysis, takerAnalysis_run, 14, hinside, takerFrame, hreflective, hframe,
      ⟨_, _, rfl, taker_target ⟨10⟩ (some ⟨13⟩) "java/lang/Object"⟩, ⟨7, 11⟩, hcode⟩
  obtain ⟨p, hp⟩ := Body.exists_replacedAt (InsnList.ofInsns_proper _) h hsome
  have hone : ∀ p < takerBody.insns.size, (takerBody.insns.insnAt p).isReflectiveInvoke = true →
      p = 14 := by decide +kernel
  obtain rfl := hone p hp.1 hp.2.1
  exact ⟨body', outcomes, h, hp⟩

theorem takerBody_not_typesVisible : ¬ takerBody.TypesVisible takerContext 14 := by
  intro hvisible
  obtain ⟨_, _, hframe, _⟩ := takerAnalysis_call
  have hknown : takerContext.hierarchy.class? "b/B" = some hiddenClass := by
    simp [takerContext, Hierarchy.class?, Hierarchy.freeze, Std.HashMap.getElem_insert]
  have hmay := hvisible takerAnalysis takerFrame _ _ _ _ takerAnalysis_run hframe rfl
    (taker_target ⟨10⟩ (some ⟨13⟩) "java/lang/Object") "b/B" (by decide) "b/B" rfl (by rw [hknown]; rfl)
    (by decide) (by decide)
  have hrefused : takerContext.canReference "b/B" = false := by decide
  exact Bool.false_ne_true (hrefused.symm.trans hmay)

/-- The new code casts to the hidden class. -/
theorem refersWell_iff_hidden :
    ∃ body' outcomes, takerBody.replaceInvokes takerContext = .ok (body', outcomes) ∧
      ¬ takerBody.RefersWell takerContext body' := by
  obtain ⟨body', outcomes, h, hp⟩ := takerBody_replaced
  refine ⟨body', outcomes, h, fun hrefers => ?_⟩
  exact takerBody_not_typesVisible ((refersWell_iff (InsnList.ofInsns_proper _) h).mp hrefers 14 hp)

/-- New code may name a class that it may not reference. -/
theorem not_forall_refersWell :
    ¬ ∀ (ctx : MethodContext) (body body' : Body) (outcomes : List SiteOutcome), body.insns.Proper →
      body.replaceInvokes ctx = .ok (body', outcomes) → body.RefersWell ctx body' := by
  intro hclaim
  obtain ⟨body', outcomes, h, hp⟩ := takerBody_replaced
  have hproper : takerBody.insns.Proper := InsnList.ofInsns_proper _
  have hrefers := hclaim takerContext takerBody body' outcomes hproper h
  rcases Body.replacement_of_replaceInvokes hproper h with ⟨rfl, _⟩ | ⟨a, decisions, plan, hplan, _⟩
  · exact hp.2.2 (InsnList.mem_order.mpr ⟨14, hp.1, rfl⟩)
  · exact takerBody_not_typesVisible (hplan.typesVisible_of_names hproper hrefers.names hp)

end DirectCall
