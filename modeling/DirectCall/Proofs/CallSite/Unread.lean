import DirectCall.Proofs.CallSite.DeadLookups
import DirectCall.Proofs.CallSite.Fresh
import DirectCall.Proofs.CallSite.Place

/-!
# What is left to read a dead look-up

Once a look-up is gone, no load of its local may be left that read its method object, and no instruction outside
its code may take a value from the stack that the code pushed (`Body.ClearsLookup`). Loads are compared by the
producers that their local may have, and these are right. Values on the stack are compared by their producers as
well: an exception has none, and what the code pushed in an earlier round of a loop counts as the same ahead of
the code and behind it (`roundBody`). `clearsLookup_iff` says exactly when the look-up is cleared.
-/

namespace DirectCall

/-! ## Loads in new code -/

namespace PlannedSite

variable {p : PlannedSite} {a : SiteAnalysis} {fresh x : UInt16}

/-- The code of a direct call loads references from the local of the array only. -/
theorem eq_of_aload_mem_callCode {var : Option UInt16} (h : .var Opcode.aload x ∈ p.callCode var) :
    var = some x := by
  have hunbox : ∀ {param}, .var Opcode.aload x ∉ Insn.unbox param := by
    intro param hmem
    rcases Insn.mem_unbox hmem with ⟨k, _, heq | heq⟩ | ⟨className, _, _, _, heq⟩ <;> cases heq
  rw [callCode_eq] at h
  rcases List.mem_append.mp h with h | h
  · rcases List.mem_append.mp h with h | h
    · unfold ResolvedMethod.receiverCode at h
      split_ifs at h
      · cases List.mem_singleton.mp h
      · cases h
      · cases List.mem_singleton.mp h
    · cases var with
      | none => cases h
      | some var =>
        rcases Insn.mem_elements h with ⟨index, heq | heq | heq⟩ | ⟨param, _, h⟩
        · cases heq
          rfl
        · unfold Insn.pushInt at heq
          split_ifs at heq
          cases heq
        · cases heq
        · exact absurd h hunbox
  · rcases List.mem_cons.mp h with heq | h
    · cases heq
    · rcases Insn.mem_box h with heq | ⟨k, _, heq⟩ <;> cases heq

/-- The code at a call loads the array from the local that had it, or from a fresh one. -/
theorem aload_of_edit (h : .var Opcode.aload x ∈ (p.edit a fresh).atSite) :
    (∃ load, p.arguments = .inLocal x load) ∨ x = fresh ∧ p.needsLocal = true := by
  have hstore : Insn.var Opcode.aload x ≠ .var Opcode.astore fresh := fun heq => by cases heq
  have hpop : Insn.var Opcode.aload x ≠ .op Opcode.pop := fun heq => by cases heq
  cases harguments : p.arguments with
  | none code =>
    cases code with
    | none =>
      simp only [edit, harguments] at h
      cases eq_of_aload_mem_callCode ((List.mem_cons.mp h).resolve_left hpop)
    | some code =>
      simp only [edit, harguments] at h
      cases eq_of_aload_mem_callCode h
  | inLocal var load =>
    simp only [edit, harguments] at h
    cases eq_of_aload_mem_callCode h
    exact .inl ⟨load, rfl⟩
  | stored =>
    simp only [edit, harguments] at h
    cases eq_of_aload_mem_callCode ((List.mem_cons.mp h).resolve_left hstore)
    exact .inr ⟨rfl, by rw [needsLocal, harguments]⟩
  | moved code receiver =>
    simp only [edit, harguments] at h
    cases eq_of_aload_mem_callCode h
    exact .inr ⟨rfl, by rw [needsLocal, harguments]⟩

/-- An array with elements is loaded from its local again. -/
theorem aload_mem_edit {load : Span} (harguments : p.arguments = .inLocal x load)
    (hparams : p.parsed.params ≠ []) : .var Opcode.aload x ∈ (p.edit a fresh).atSite := by
  obtain ⟨param, rest, hparams⟩ := List.exists_cons_of_ne_nil hparams
  have helements : .var Opcode.aload x ∈ Insn.elements x p.parsed.params := by
    refine List.mem_flatMap.mpr ⟨(param, 0), ?_, List.mem_cons_self⟩
    rw [hparams, List.length_cons, List.range_succ_eq_map, List.zip_cons_cons]
    exact List.mem_cons_self
  simp only [edit, harguments]
  rw [callCode_eq]
  exact List.mem_append_left _ (List.mem_append_right _ helements)

end PlannedSite

namespace SiteAnalysis

variable {ctx : MethodContext} {a : SiteAnalysis} {call : Nat} {frame : Frame ConstantValue}
  {site other : PlannedSite}

/-- The plans of a call differ in nothing. -/
theorem Planned.unique (h : a.Planned ctx call frame site) (h' : a.Planned ctx call frame other) :
    site.arguments = other.arguments ∧ site.parsed = other.parsed := by
  obtain ⟨m, length, hm, htarget, harguments⟩ := h.known
  obtain ⟨m', length', hm', htarget', harguments'⟩ := h'.known
  obtain rfl := ConstantValue.method.inj (Option.some.inj (hm.symm.trans hm'))
  obtain ⟨hresolved, heq⟩ := Prod.mk.inj (Except.ok.inj (htarget.symm.trans htarget'))
  obtain ⟨hparsed, rfl⟩ := Prod.mk.inj heq
  exact ⟨harguments.trans harguments'.symm, hparsed⟩

/-- An array in a local has elements. -/
theorem Planned.params_of_inLocal (h : a.Planned ctx call frame site) {x : UInt16} {load : Span}
    (harguments : site.arguments = .inLocal x load) : site.parsed.params ≠ [] := by
  obtain ⟨m, length, _, htarget, hplanned⟩ := h.known
  intro hnone
  have hlength := (MethodContext.targets_of_target htarget).length
  rw [hnone] at hlength
  obtain rfl : length = 0 := Int32.toInt_inj.mp hlength
  rw [harguments, SiteAnalysis.arguments, if_pos rfl] at hplanned
  cases hplanned

/-- In the frames of the analysis, the local may hold what the node stored there. -/
def MayHold (a : SiteAnalysis) (p : Nat) (x : UInt16) (id : NodeId) : Prop :=
  ∃ known v, a.sources.frameAt p = some known ∧ known.locals[x.toNat]? = some v ∧ id ∈ v.producers

/-- A local that may hold what a node stored is one that the node writes. -/
theorem MayHold.written {m : MethodSig} {body : Body} (hrun : run m body = .ok a) {p : Nat} {x : UInt16}
    {id : NodeId} (h : a.MayHold p x id) : x.toNat ∈ (body.insns.get id).writtenSlots := by
  obtain ⟨known, v, hknown, hv, hid⟩ := h
  exact SourceAnalysis.written_of_run (sources_of_run hrun).1 hknown _ v hv id hid

/-- A load of a local that may hold the method object is one of its readers. -/
theorem mem_readers {p : Nat} {x : UInt16} {store : NodeId} (hinsn : a.insnAt p = .var Opcode.aload x)
    (h : a.MayHold p x store) (hp : p < a.flow.size) : a.idAt p ∈ a.readers store x := by
  obtain ⟨known, v, hknown, hv, hid⟩ := h
  refine List.mem_map_of_mem (List.mem_filter.mpr ⟨List.mem_range.mpr hp, ?_⟩)
  simp [readsStore, hinsn, hknown, hv, hid]

end SiteAnalysis

/-! ## What is cleared -/

namespace Body

/-- The node is made for the call at a position, and stands in its place. -/
def MadeAt (ctx : MethodContext) (body body' : Body) (a : SiteAnalysis) (p : Nat) (id : NodeId) : Prop :=
  ∃ draft ∈ Draft.ofEdits body.insns.nodes.size (Planning.run ctx a body).edits.reverse,
    draft.edit.site = body.insns.idAt p ∧ id ∈ draft.block ∧ body.StandsAt body' p draft.block

/-- What a look-up stored and pushed is not read once it is gone. A load that stays, or is added at a call, reads
a local that may not hold the method object there, and on no path is a value that the code pushed taken off the
stack by an instruction outside. -/
structure ClearsLookup (ctx : MethodContext) (body body' : Body) (a : SiteAnalysis) (code : Span) (store : Nat) :
    Prop where
  kept : ∀ p < body.insns.size, body.insns.idAt p ∈ body'.insns.order →
    ∀ x, body.insns.insnAt p = .var Opcode.aload x → ¬ a.MayHold p x (a.idAt store)
  added : ∀ id ∈ body'.insns.order, id ∉ body.insns.order → ∀ x, body'.insns.get id = .var Opcode.aload x →
    ∃ p < body.insns.size, body.MadeAt ctx body' a p id ∧ ¬ a.MayHold p x (a.idAt store)
  popped : a.sources.PopsWithin ctx.method body (a.realIds code)

/-- Where a replaced call loads its array from a local again, that local may not hold what a node stored. -/
def ReloadsApart (ctx : MethodContext) (body body' : Body) (a : SiteAnalysis) (store : NodeId) : Prop :=
  ∀ p frame site x load, body.ReplacedAt body' p → a.constants.getD p none = some frame →
    a.Planned ctx p frame site → site.arguments = .inLocal x load → ¬ a.MayHold p x store

end Body

namespace Replacement

variable {ctx : MethodContext} {body body' : Body} {a : SiteAnalysis} {decisions : List Decision}
  {plan : EditPlan} {store : Nat} {var : UInt16}

section Loads

variable (h : Replacement ctx a body body' decisions plan)

include h

theorem get_idAt (p : Nat) : body.insns.get (a.idAt p) = a.insnAt p := by
  rw [h.idAt, h.insnAt]
  rfl

/-- The locals that new nodes store into are those of the edits. -/
theorem addedStores_eq :
    body.addedStores body' = ((a.edits decisions).flatMap (·.made)).filterMap Insn.storedLocal? := by
  rw [Body.addedStores, h.insns]
  simp

/-- A fresh local may not hold what an instruction of the body stored. -/
theorem fresh_apart {m : MethodSig} (hfresh : body.StoresFresh m body') {d : Decision} (hd : d ∈ decisions)
    {site : PlannedSite} {fresh : UInt16} (hverdict : d.verdict = .ok (site, fresh))
    (hneeds : site.needsLocal = true) (hreached : body.Reaches store) (p : Nat) :
    ¬ a.MayHold p fresh (a.idAt store) := by
  intro hhold
  have hmem : fresh ∈ body.addedStores body' := by
    rw [h.addedStores_eq, List.filterMap_flatMap]
    refine List.mem_flatMap.mpr ⟨site.edit a fresh, List.mem_filterMap.mpr ⟨d, hd, ?_⟩, ?_⟩
    · rw [Decision.edit?, hverdict]
    · rw [site.stores_of_edit, if_pos hneeds]
      exact List.mem_cons_self
  have hwritten := hhold.written h.analysis
  rw [h.get_idAt] at hwritten
  refine hfresh.untouched store hreached fresh hmem ?_
  rw [← h.insnAt]
  exact List.mem_append_right _ hwritten

/-- A load that stays may not read the method object of a dead look-up. -/
theorem kept_apart (hdecides : Planning.Decides ctx a body a.reachedCalls decisions (Planning.run ctx a body))
    (hreaders : ∀ n ∈ a.readers (a.idAt store) var, (Planning.run ctx a body).loads.contains n = true)
    (hstore : a.insnAt store = .var Opcode.astore var) {p : Nat} (hp : p < body.insns.size)
    (hmem : body.insns.idAt p ∈ body'.insns.order) {x : UInt16}
    (hinsn : body.insns.insnAt p = .var Opcode.aload x) : ¬ a.MayHold p x (a.idAt store) := by
  intro hhold
  have hwritten := hhold.written h.analysis
  rw [h.get_idAt, hstore] at hwritten
  obtain rfl : x = var := UInt16.toNat_inj.mp (List.mem_singleton.mp hwritten)
  have hreader := SiteAnalysis.mem_readers (hinsn ▸ h.insnAt p) hhold (h.size ▸ hp)
  obtain ⟨e, he, hremove⟩ := hdecides.load_removed (hreaders _ hreader)
  exact h.not_mem_of_removed (h.removes e he _ (.inr (h.idAt p ▸ hremove))) hmem

/-- The node is of the draft for the call. -/
theorem madeAt_iff (hproper : body.insns.Proper)
    (hdecides : Planning.Decides ctx a body a.reachedCalls decisions (Planning.run ctx a body)) {p : Nat}
    (hp : p < body.insns.size) {id : NodeId} : body.MadeAt ctx body' a p id ↔
      ∃ draft ∈ Draft.ofEdits body.insns.nodes.size (a.edits decisions),
        draft.edit.site = body.insns.idAt p ∧ id ∈ draft.block := by
  have hedits : (Planning.run ctx a body).edits.reverse = a.edits decisions := hdecides.edits
  unfold Body.MadeAt
  rw [hedits]
  constructor
  · rintro ⟨draft, hdraft, hsite, hid, _⟩
    exact ⟨draft, hdraft, hsite, hid⟩
  · rintro ⟨draft, hdraft, hsite, hid⟩
    exact ⟨draft, hdraft, hsite, hid, h.stands hproper hdraft hp hsite⟩

/-- The plan and the fresh local of a replaced call. -/
theorem exists_site {draft : Draft} (hdraft : draft ∈ Draft.ofEdits body.insns.nodes.size (a.edits decisions)) :
    ∃ d ∈ decisions, ∃ site fresh frame, d.verdict = .ok (site, fresh) ∧ draft.edit = site.edit a fresh ∧
      draft.edit.site = body.insns.idAt d.position ∧ a.constants.getD d.position none = some frame ∧
        a.Planned ctx d.position frame site := by
  obtain ⟨d, hd, hedit, _⟩ := h.exists_decision (mem_edits hdraft)
  obtain ⟨site, fresh, hverdict, hcarried, _⟩ := h.carries_of_edit hd hedit
  obtain ⟨_, frame, hframe, hplan⟩ := h.planned d hd site fresh hverdict
  exact ⟨d, hd, site, fresh, frame, hverdict, hcarried, h.site_of_edit hd hedit, hframe,
    SiteAnalysis.planned_of_plan hplan⟩

/-- Added loads are of fresh locals, or load an array again. -/
theorem added_apart (hproper : body.insns.Proper)
    (hdecides : Planning.Decides ctx a body a.reachedCalls decisions (Planning.run ctx a body))
    (hfresh : body.StoresFresh ctx.method body') (hreached : body.Reaches store)
    (hreloads : body.ReloadsApart ctx body' a (a.idAt store)) {id : NodeId} (hid : id ∈ body'.insns.order)
    (hnew : id ∉ body.insns.order) {x : UInt16} (hinsn : body'.insns.get id = .var Opcode.aload x) :
    ∃ p < body.insns.size, body.MadeAt ctx body' a p id ∧ ¬ a.MayHold p x (a.idAt store) := by
  rcases (h.mem_order_cases hid).resolve_left hnew with ⟨var, hstored⟩ | ⟨draft, hdraft, hblock⟩
  · cases hinsn.symm.trans hstored
  · obtain ⟨d, hd, site, fresh, frame, hverdict, hedit, hsite, hframe, hplanned⟩ := h.exists_site hdraft
    obtain ⟨hinside, hreflective⟩ := h.call_lt hd
    refine ⟨d.position, hinside, (h.madeAt_iff hproper hdecides hinside).mpr ⟨draft, hdraft, hsite, hblock⟩, ?_⟩
    have hload : Insn.var Opcode.aload x ∈ (site.edit a fresh).atSite := by
      rw [← hedit, ← (h.map_get hdraft).2, ← hinsn]
      exact List.mem_map_of_mem hblock
    rcases PlannedSite.aload_of_edit hload with ⟨load, harguments⟩ | ⟨rfl, hneeds⟩
    · have hgone := (h.gone_iff hproper hinside hreflective).mpr ⟨_, mem_edits hdraft, hsite⟩
      exact hreloads d.position frame site x load ⟨hinside, hreflective, hgone⟩ hframe hplanned harguments
    · exact h.fresh_apart hfresh hd hverdict hneeds hreached d.position

/-- An array that is loaded again is loaded by an added node. -/
theorem reloadsApart_of_added (hproper : body.insns.Proper)
    (hdecides : Planning.Decides ctx a body a.reachedCalls decisions (Planning.run ctx a body))
    (hadded : ∀ id ∈ body'.insns.order, id ∉ body.insns.order → ∀ x, body'.insns.get id = .var Opcode.aload x →
      ∃ p < body.insns.size, body.MadeAt ctx body' a p id ∧ ¬ a.MayHold p x (a.idAt store)) :
    body.ReloadsApart ctx body' a (a.idAt store) := by
  intro p frame site x load hreplaced hframe hplanned harguments
  obtain ⟨c, hc, rfl, draft, hdraft, hedit⟩ := h.exists_draft hproper hreplaced
  obtain ⟨d, hd, site', fresh, frame', hverdict, hedit', hsite, hframe', hplanned'⟩ := h.exists_site hdraft
  have hposition : d.position = c.position :=
    hproper.idAt_inj (h.call_lt hd).1 hreplaced.1 (hsite.symm.trans (h.site_of_edit hc hedit))
  rw [hposition] at hframe' hplanned'
  obtain rfl := Option.some.inj (hframe.symm.trans hframe')
  obtain ⟨hsame, hparsed⟩ := hplanned.unique hplanned'
  -- The load is in the code at the call, on a node of its own.
  have hload : Insn.var Opcode.aload x ∈ draft.edit.atSite := by
    rw [hedit']
    exact PlannedSite.aload_mem_edit (hsame ▸ harguments) (hparsed ▸ hplanned.params_of_inLocal harguments)
  obtain ⟨id, hid, hnew, hblock, hinsn⟩ := h.exists_new hproper hdraft hload
  obtain ⟨q, hq, hmade, hapart⟩ := hadded id hid hnew x hinsn
  obtain ⟨draft', hdraft', hsite', hblock'⟩ := (h.madeAt_iff hproper hdecides hq).mp hmade
  obtain ⟨rfl, _⟩ := Draft.eq_of_mem_ids hdraft hdraft' hblock (List.mem_append_right _ hblock')
  obtain rfl : q = c.position :=
    hproper.idAt_inj hq hreplaced.1 (hsite'.symm.trans (h.site_of_edit hc hedit))
  exact hapart

end Loads

end Replacement

namespace Body

variable {ctx : MethodContext} {body body' : Body} {a : SiteAnalysis} {outcomes : List SiteOutcome}

/-- The store of a look-up that goes away is reached. -/
theorem reaches_store {m : MethodSig} {gone : Std.HashSet NodeId} {spent : Std.HashSet Nat}
    (ha : SiteAnalysis.run m body = .ok a) (d : a.DeadLookup gone spent) : body.Reaches d.store := by
  obtain ⟨hsources, hflow⟩ := SiteAnalysis.sources_of_run ha
  obtain ⟨hframes, hflow', _⟩ := SourceAnalysis.run_eq_ok hsources
  obtain ⟨known, _, hknown, _⟩ := d.stack_at_store
  exact ⟨a.sources.flow, hflow', (Frame.isSome_iff_reaches hframes hflow' _).mp (Option.isSome_of_eq_some hknown)⟩

/-- The code of a dead look-up is gone. What it stored and pushed is not read any more exactly if no array is
loaded again from a local that may hold the method object, and in the frames of the analysis no instruction
outside the code takes a value off the stack that the code may have pushed. None does, if the code pushed nothing
that is on the stack ahead of it. -/
theorem clearsLookup_iff (hproper : body.insns.Proper) (h : body.replaceInvokes ctx = .ok (body', outcomes))
    (ha : SiteAnalysis.run ctx.method body = .ok a) (hfresh : body.StoresFresh ctx.method body')
    (hmeet : a.sources.WidthsMeet ctx.method body)
    (d : a.DeadLookup (Planning.run ctx a body).loads (Planning.run ctx a body).spent) :
    (∀ id ∈ a.realIds d.code, id ∉ body'.insns.order) ∧
      (body.ClearsLookup ctx body' a d.code d.store ↔
        body.ReloadsApart ctx body' a (a.idAt d.store) ∧ a.sources.TakesWithin (a.realIds d.code)) ∧
      (a.CarriesNone d.code → a.sources.TakesWithin (a.realIds d.code)) := by
  obtain ⟨decisions, plan, hdecides, hplan, _, hdead⟩ := replacement_of_run hproper ha h
  obtain ⟨hlookup, hcode, hreaders, hsome, _⟩ := d.spec
  obtain ⟨hsources, _⟩ := SiteAnalysis.sources_of_run ha
  have hpops : a.sources.PopsWithin ctx.method body (a.realIds d.code) ↔
      a.sources.TakesWithin (a.realIds d.code) :=
    SourceAnalysis.popsWithin_iff hsources hmeet
  refine ⟨fun id hid => ?gone, ⟨fun hclears => ?_, fun hapart => ?_⟩,
    d.takesWithin_of_carriesNone hproper ha hmeet⟩
  case gone =>
    obtain ⟨reader, hreader⟩ := List.exists_mem_of_ne_nil _ hsome
    obtain ⟨e, he, _⟩ := hdecides.load_removed (hreaders reader hreader)
    have hloads : (Planning.run ctx a body).loads.isEmpty = false := by
      rw [Bool.eq_false_iff]
      intro hempty
      have hnone := Std.HashSet.contains_of_isEmpty hempty (a := reader)
      rw [hreaders reader hreader] at hnone
      cases hnone
    refine hplan.not_mem_of_removed (hdead (List.ne_nil_of_mem he) id ?_)
    have hbounds := d.bounds
    rw [SiteAnalysis.deadLookups, hloads]
    exact List.mem_flatMap.mpr ⟨d.lookup, List.mem_range.mpr (by omega), hcode ▸ hid⟩
  · exact ⟨hplan.reloadsApart_of_added hproper hdecides hclears.added, hpops.mp hclears.popped⟩
  · refine ⟨fun p hp hmem x hinsn => ?_, fun id hid hnew x hinsn => ?_, hpops.mpr hapart.2⟩
    · exact hplan.kept_apart hdecides hreaders d.insnAt_store hp hmem hinsn
    · exact hplan.added_apart hproper hdecides hfresh (reaches_store ha d) hapart.1 hid hnew hinsn

end Body

/-! ## A value that is carried round a loop

The handler finds an exception on the stack, and puts the class that is looked up below the name of the class in
the look-up; the exception is dropped. In the next round the class from the round before takes its place. -/

def roundContext : MethodContext :=
  { calleeContext with method := ⟨"a/B", "m", "()Ljava/lang/Object;", 0x0008⟩ }

def roundBody : Body where
  insns := InsnList.ofInsns #[
    .label, .call Opcode.invokestatic ⟨"a/A", "g", "()V"⟩ false, .label, .op Opcode.aconstNull,
    .op Opcode.areturn,
    .label, .load (.classRef "a/A"), .op Opcode.dupX1, .op Opcode.swap, .op Opcode.pop, .load (.string "g"),
    .op Opcode.iconst0, .ofClass Opcode.anewarray "java/lang/Class", lookupCall, .var Opcode.astore 0,
    .var Opcode.aload 0, .op Opcode.aconstNull, .op Opcode.iconst0, .ofClass Opcode.anewarray "java/lang/Object",
    invokeCall, .op Opcode.pop, .op Opcode.iconst0, .jump 0x9a ⟨5⟩, .op Opcode.areturn]
  regions := [⟨⟨0⟩, ⟨2⟩, ⟨5⟩, none⟩]
  locals := []
  maxStack := 4
  maxLocals := 1

def roundAnalysis : SiteAnalysis :=
  (SiteAnalysis.run roundContext.method roundBody).toOption.get (by decide +kernel)

theorem roundAnalysis_run : SiteAnalysis.run roundContext.method roundBody = .ok roundAnalysis :=
  eq_ok_get _

/-- The frame ahead of the call. -/
def roundFrame : Frame ConstantValue :=
  ⟨#[.method ⟨⟨13⟩, "a/A", "g", [], false⟩], [.array none "java/lang/Object" 0 [], .unknown .single,
    .method ⟨⟨13⟩, "a/A", "g", [], false⟩, .classRef "a/A"]⟩

def roundSite : PlannedSite :=
  ⟨19, Candidate.resolved ⟨calleeClass, calleeG⟩, ⟨[], "V"⟩, ⟨15, 16⟩, some ⟨15⟩, .none (some ⟨17, 19⟩)⟩

theorem roundAnalysis_evidence :
    roundAnalysis.sources.evidence 19 [0] = [15] ∧ roundAnalysis.sources.evidence 19 [2] = [17, 18] ∧
      roundAnalysis.sources.evidence 13 [0, 1, 2] = [6, 7, 8, 10, 11, 12] := by
  have hcall : [[0], [2]].map (roundAnalysis.sources.evidence 19) = [[15], [17, 18]] :=
    SourceAnalysis.evidence_map_of_reachWithin 100 (by decide +kernel)
  have hlookup : [[0, 1, 2]].map (roundAnalysis.sources.evidence 13) = [[6, 7, 8, 10, 11, 12]] :=
    SourceAnalysis.evidence_map_of_reachWithin 100 (by decide +kernel)
  simpa [and_assoc] using And.intro hcall hlookup

/-- What the analysis says of the call, and of the look-up. -/
theorem roundAnalysis_sites :
    (((List.range roundAnalysis.flow.size).filter fun p => (roundAnalysis.insnAt p).isReflectiveInvoke) = [19] ∧
      roundAnalysis.constants.getD 19 none = some roundFrame ∧
        roundAnalysis.methodCode? 19 = some ⟨15, 16⟩ ∧ roundAnalysis.methodLoad? ⟨15, 16⟩ = some ⟨15⟩ ∧
          roundAnalysis.arguments 19 0 = .none (some ⟨17, 19⟩)) ∧
      (roundAnalysis.insnAt 13).isMethodLookup = true ∧ roundAnalysis.storeAfter? 13 = some (14, 0) ∧
        roundAnalysis.readers (roundAnalysis.idAt 14) 0 = [⟨15⟩] ∧
          roundAnalysis.spanOfSlots 13 [0, 1, 2] = some ⟨6, 13⟩ ∧
            roundAnalysis.isRemovable ⟨6, 14⟩ 14 0 1 = true ∧
              roundAnalysis.realIds ⟨6, 15⟩ = (List.range' 6 9).map NodeId.mk ∧ roundAnalysis.idAt 14 = ⟨14⟩ := by
  obtain ⟨hmethod, harray, hlookup⟩ := roundAnalysis_evidence
  simp only [SiteAnalysis.methodCode?, SiteAnalysis.arguments, SiteAnalysis.spanOf, SiteAnalysis.spanOfSlots,
    hmethod, harray, hlookup]
  decide +kernel

theorem roundSite_plan {spent : Std.HashSet Nat} (hspent : ∀ p, spent.contains p = false) :
    roundAnalysis.plan roundContext spent 19 roundFrame = .ok roundSite := by
  obtain ⟨⟨_, _, hcode, hload, harguments⟩, _⟩ := roundAnalysis_sites
  have htarget : roundContext.target ⟨⟨13⟩, "a/A", "g", [], false⟩ (roundFrame.peek? 0) =
      .ok (Candidate.resolved ⟨calleeClass, calleeG⟩, ⟨[], "V"⟩, 0) :=
    target_g ⟨13⟩ "java/lang/Object"
  have hplan := SiteAnalysis.plan_of_unspent roundFrame hspent rfl htarget hcode
  rw [hload, harguments] at hplan
  exact hplan

/-- The call is replaced, and the load of its method object goes away. -/
theorem roundBody_planning : Planning.run roundContext roundAnalysis roundBody =
    Planning.accept ⟨[], [], ∅, ∅, 1⟩ roundAnalysis (roundBody.lineAt 19) roundSite := by
  obtain ⟨⟨hcalls, hframe, _⟩, _⟩ := roundAnalysis_sites
  have hcall := isReflectiveInvoke_of_mem hcalls (p := 19) (by simp)
  rw [Planning.run_eq_foldl_calls, hcalls, List.foldl_cons, List.foldl_nil,
    Planning.visit_of_plan hcall hframe (roundSite_plan (by simp))]
  rfl

theorem roundBody_unspent : ∀ p ∈ (Span.mk 6 15).positions,
    (Planning.run roundContext roundAnalysis roundBody).spent.contains p = false := by
  intro p hp
  obtain ⟨hle, hlt⟩ : 6 ≤ p ∧ p < 15 := Span.mem_positions.mp hp
  simp [roundBody_planning, Planning.accept, roundSite, PlannedSite.used, Span.positions, Arguments.span?]
  omega

/-- Then the look-up goes away as well. -/
theorem roundAnalysis_dead : roundAnalysis.idAt 14 ∈
    roundAnalysis.deadLookupAt (Planning.run roundContext roundAnalysis roundBody).loads
      (Planning.run roundContext roundAnalysis roundBody).spent 13 := by
  obtain ⟨_, hlookup, hstore, hreaders, hoperands, hremovable, hcode, hid⟩ := roundAnalysis_sites
  have hloads : ⟨15⟩ ∈ (Planning.run roundContext roundAnalysis roundBody).loads := by
    simp [roundBody_planning, Planning.accept, roundSite]
  rw [SiteAnalysis.deadLookupAt_eq hlookup hstore (by simp [hreaders]) (by simp [hreaders, hloads]) hoperands
    hremovable roundBody_unspent, hcode, hid]
  decide

def roundLookup : roundAnalysis.DeadLookup (Planning.run roundContext roundAnalysis roundBody).loads
    (Planning.run roundContext roundAnalysis roundBody).spent where
  lookup := 13
  operands := ⟨6, 13⟩
  store := 14
  var := 0
  call_operands := roundAnalysis_sites.2.2.2.2.1
  stores := roundAnalysis_sites.2.2.1
  dead := roundAnalysis_dead

/-- No local is added. -/
theorem roundBody_fresh : ∃ body' outcomes, roundBody.replaceInvokes roundContext = .ok (body', outcomes) ∧
    roundBody.StoresFresh roundContext.method body' := by
  obtain ⟨body', outcomes, h⟩ := Body.replaceInvokes_total roundContext roundAnalysis_run
  have hany : roundBody.insns.insns.any (·.isReflectiveInvoke) = true :=
    (Body.any_insns_ofInsns _ _).trans rfl
  have hnone : roundBody.addedStores body' = [] := by
    rw [Body.addedStores_of_planning roundAnalysis_run hany h, roundBody_planning,
      Planning.stores_accept]
    rfl
  refine ⟨body', outcomes, h, ?_, ?_, ?_⟩ <;> simp [hnone]

/-- The frame in which the method starts. -/
def roundEntry : Frame SourceValue := ⟨#[⟨1, []⟩], []⟩

theorem roundBody_entry :
    Frame.entry (SourceAnalysis.domainOf roundBody) roundContext.method roundBody.maxLocals = .ok roundEntry := by
  rfl

def roundFlow : Flow := ⟨roundBody.insns, roundBody.insns.positions, [⟨0, 2, ⟨5, none⟩⟩]⟩

/-- From the exception round the loop, and out of it. -/
def roundPath : List Move := .next 1 :: .raise ⟨5, none⟩ :: (List.range' 6 18).map .next

/-- The regions, the widths of the results, and the path with the values that are carried along it. -/
theorem roundFlow_carries :
    (roundBody.regions.mapM (Flow.coverage roundBody.insns.positions)).toOption = some roundFlow.coverages ∧
      (∀ p < roundFlow.size, Descriptor.size (roundFlow.insnAt p).result? = 1) ∧
        roundFlow.IsPath 0 roundPath ∧ Flow.endOf 0 roundPath = 23 ∧
          (Frame.follow (SourceAnalysis.domainOf roundBody) roundFlow 0 roundEntry roundPath).toOption =
            some ⟨#[⟨1, [⟨14⟩]⟩], [⟨1, [⟨7⟩]⟩]⟩ := by
  refine ⟨?_, ?_, ?_, ?_, ?_⟩ <;> decide +kernel

theorem roundAnalysis_flow : roundAnalysis.sources.flow = roundFlow := by
  have hflow : Flow.ofBody roundBody = .ok roundFlow := by
    rw [Flow.ofBody, ok_of_toOption roundFlow_carries.1]
    rfl
  obtain ⟨hsources, _⟩ := SiteAnalysis.sources_of_run roundAnalysis_run
  exact Except.ok.inj ((SourceAnalysis.run_eq_ok hsources).2.1.symm.trans hflow)

/-- No value is wide. -/
theorem roundAnalysis_widthsMeet : roundAnalysis.sources.WidthsMeet roundContext.method roundBody := by
  refine SourceAnalysis.widthsMeet_of_narrow (SiteAnalysis.sources_of_run roundAnalysis_run).1
    (fun entry hentry => ?_) ?_
  · obtain rfl := Except.ok.inj (roundBody_entry.symm.trans hentry)
    simp [Frame.All, Frame.slots, roundEntry, SourceValue.Narrow]
  · rw [roundAnalysis_flow]
    exact roundFlow_carries.2.1

/-- The return takes what the look-up pushed. -/
theorem roundBody_pops :
    ¬ roundAnalysis.sources.PopsWithin roundContext.method roundBody (roundAnalysis.realIds ⟨6, 15⟩) := by
  intro hpops
  obtain ⟨_, _, _, _, _, _, hcode, _⟩ := roundAnalysis_sites
  obtain ⟨_, _, hpath, hend, hheld⟩ := roundFlow_carries
  rw [← roundAnalysis_flow] at hpath hheld
  have hpop := hpops roundEntry roundPath _ roundBody_entry hpath (ok_of_toOption hheld)
  rw [hend, roundAnalysis_flow, hcode] at hpop
  exact hpop (by decide +kernel) ⟨1, [⟨7⟩]⟩ (by decide +kernel) ⟨7⟩ (by decide) (by decide)

/-- The look-up goes away, though the return takes what it pushed. -/
theorem clearsLookup_iff_round : ∃ body' outcomes,
    roundBody.replaceInvokes roundContext = .ok (body', outcomes) ∧
      (∀ id ∈ roundAnalysis.realIds ⟨6, 15⟩, id ∉ body'.insns.order) ∧
        ¬ roundBody.ClearsLookup roundContext body' roundAnalysis ⟨6, 15⟩ 14 := by
  obtain ⟨body', outcomes, h, hfresh⟩ := roundBody_fresh
  obtain ⟨hgone, hiff, _⟩ := Body.clearsLookup_iff (InsnList.ofInsns_proper _) h roundAnalysis_run hfresh
    roundAnalysis_widthsMeet roundLookup
  refine ⟨body', outcomes, h, hgone, fun hclears => roundBody_pops ?_⟩
  obtain ⟨hsources, _⟩ := SiteAnalysis.sources_of_run roundAnalysis_run
  exact (SourceAnalysis.popsWithin_iff hsources roundAnalysis_widthsMeet).mpr (hiff.mp hclears).2

/-- What a dead look-up pushed may be read once it is gone. -/
theorem not_forall_clearsLookup :
    ¬ ∀ (ctx : MethodContext) (body body' : Body) (outcomes : List SiteOutcome) (a : SiteAnalysis),
      body.insns.Proper → body.replaceInvokes ctx = .ok (body', outcomes) →
        SiteAnalysis.run ctx.method body = .ok a → body.StoresFresh ctx.method body' →
          a.sources.WidthsMeet ctx.method body →
            ∀ d : a.DeadLookup (Planning.run ctx a body).loads (Planning.run ctx a body).spent,
              body.ClearsLookup ctx body' a d.code d.store := by
  intro hclaim
  obtain ⟨body', outcomes, h, hfresh⟩ := roundBody_fresh
  exact roundBody_pops (hclaim roundContext roundBody body' outcomes roundAnalysis (InsnList.ofInsns_proper _) h
    roundAnalysis_run hfresh roundAnalysis_widthsMeet roundLookup).popped

end DirectCall
