import DirectCall.Proofs.CallSite.Replacement
import DirectCall.Proofs.Code.Decode
import DirectCall.Proofs.Code.WellMade
import DirectCall.Transformation.Class

/-!
# Bodies stay writable

A body that was read has a proper list (`Body.decode_proper`), and both replacements keep it so: every node that
an edit places is new or has a place already (`Body.replaceCalls_proper`). Calls are replaced by fresh
instructions, and code only moves where no local variable entry starts or ends. So a body that is made well is
so after its calls were replaced (`Body.replaceCalls_wellMade`) and after it was pruned
(`Body.prune_wellMade`).
-/

namespace DirectCall

/-! ## Lists stay proper -/

namespace Body

theorem replaceForNames_proper (ctx : MethodContext) {body : Body} (h : body.insns.Proper) :
    (body.replaceForNames ctx).1.insns.Proper := by
  have hfold : ∀ (sites : List ForNameSite) (state : InsnList × EditPlan), state.1.Edited state.2 →
      (sites.foldl (recordForName body.insns.idAt) state).1.Edited
        (sites.foldl (recordForName body.insns.idAt) state).2 := by
    intro sites
    induction sites with
    | nil => exact fun _ h => h
    | cons first rest ih =>
      intro state h
      exact ih _ (((h.insertNew (initializedClass first.className) _).remove _).remove _)
  unfold replaceForNames
  dsimp only
  split_ifs
  · exact h
  · exact (hfold _ _ (.start h)).commit

/-- Replacing calls keeps a proper list proper. -/
theorem replaceCalls_proper {ctx : MethodContext} {passes : List Pass} {body body' : Body}
    {outcomes : List SiteOutcome} (hproper : body.insns.Proper)
    (h : body.replaceCalls ctx passes = .ok (body', outcomes)) : body'.insns.Proper := by
  unfold replaceCalls at h
  obtain ⟨named, sites, hnamed⟩ : ∃ named sites,
      (if passes.contains .forName then body.replaceForNames ctx else (body, [])) = (named, sites) :=
    ⟨_, _, rfl⟩
  have hproper' : named.insns.Proper := by
    split_ifs at hnamed
    · have hkept := replaceForNames_proper ctx hproper
      rwa [hnamed] at hkept
    · cases hnamed
      exact hproper
  rw [hnamed] at h
  dsimp only at h
  split_ifs at h
  · obtain ⟨⟨after, more⟩, hinvokes, h⟩ := bind_eq_ok.mp h
    cases h
    exact replaceInvokes_proper hproper' hinvokes
  · cases h
    exact hproper'

end Body

/-! ## Fresh instructions -/

namespace Insn

theorem isFresh_pushInt (value : Int32) : (pushInt value).IsFresh := by
  unfold pushInt
  simp only [Int32.le_iff_toInt_le]
  split_ifs with hsmall hbyte hshort
  · refine ⟨?_, rfl⟩
    obtain ⟨hle, hge⟩ : -1 ≤ value.toInt ∧ value.toInt ≤ 5 := hsmall
    have hcases : value.toInt = -1 ∨ value.toInt = 0 ∨ value.toInt = 1 ∨ value.toInt = 2 ∨
        value.toInt = 3 ∨ value.toInt = 4 ∨ value.toInt = 5 := by omega
    show Code.isPlain _ = true
    rcases hcases with h | h | h | h | h | h | h
    all_goals
      rw [h]
      decide
  · exact ⟨.inl ⟨rfl, hbyte⟩, rfl⟩
  · exact ⟨.inr ⟨rfl, hshort⟩, rfl⟩
  · exact ⟨trivial, rfl⟩

theorem isFresh_unbox (param : String) : ∀ insn ∈ unbox param, insn.IsFresh := by
  unfold unbox
  split
  · simp only [List.forall_mem_cons]
    exact ⟨⟨rfl, rfl⟩, ⟨rfl, rfl⟩, by simp⟩
  · split
    · split_ifs
      · simp
      · simp only [List.forall_mem_cons]
        exact ⟨⟨rfl, rfl⟩, by simp⟩
    · simp

theorem isFresh_box (ret : String) : ∀ insn ∈ box ret, insn.IsFresh := by
  unfold box
  split_ifs
  · simp only [List.forall_mem_cons]
    exact ⟨⟨rfl, rfl⟩, by simp⟩
  · split
    · simp only [List.forall_mem_cons]
      exact ⟨⟨rfl, rfl⟩, by simp⟩
    · simp

theorem isFresh_elements (var : UInt16) (params : List String) :
    ∀ insn ∈ elements var params, insn.IsFresh := by
  intro insn hinsn
  obtain ⟨⟨param, index⟩, _, hinsn⟩ := List.mem_flatMap.mp hinsn
  have hpush : ∀ insn ∈ [.var Opcode.aload var, pushInt (Int32.ofNat index), op Opcode.aaload],
      insn.IsFresh := by
    simp only [List.forall_mem_cons]
    exact ⟨⟨rfl, rfl⟩, isFresh_pushInt _, ⟨rfl, rfl⟩, by simp⟩
  rcases List.mem_append.mp hinsn with hinsn | hinsn
  · exact hpush insn hinsn
  · exact isFresh_unbox param insn hinsn

end Insn

theorem ResolvedMethod.isFresh_receiverCode (m : ResolvedMethod) : ∀ insn ∈ m.receiverCode, insn.IsFresh := by
  unfold receiverCode
  split_ifs
  · simp only [List.forall_mem_cons]
    exact ⟨⟨rfl, rfl⟩, by simp⟩
  · simp
  · simp only [List.forall_mem_cons]
    exact ⟨⟨rfl, rfl⟩, by simp⟩

theorem ResolvedMethod.isFresh_call (m : ResolvedMethod) (member : MemberRef) (interface : Bool) :
    (Insn.call m.callOpcode member interface).IsFresh := by
  unfold callOpcode
  split_ifs <;> exact ⟨rfl, rfl⟩

theorem PlannedSite.isFresh_callCode (p : PlannedSite) (var : Option UInt16) :
    ∀ insn ∈ p.callCode var, insn.IsFresh := by
  intro insn hinsn
  simp only [callCode, List.mem_append, List.mem_singleton] at hinsn
  rcases hinsn with ((hinsn | hinsn) | rfl) | hinsn
  · exact p.resolved.isFresh_receiverCode insn hinsn
  · cases var with
    | none => simp at hinsn
    | some var => exact Insn.isFresh_elements var _ insn hinsn
  · exact p.resolved.isFresh_call _ _
  · exact Insn.isFresh_box _ insn hinsn

theorem Body.isFresh_initializedClass (className : String) :
    ∀ insn ∈ initializedClass className, insn.IsFresh := by
  simp only [initializedClass, List.forall_mem_cons]
  exact ⟨⟨rfl, rfl⟩, ⟨trivial, rfl⟩, ⟨rfl, rfl⟩, by simp⟩

/-! ## Class look-ups -/

namespace Body

variable {pool : ConstantPool} {body body' : Body}

/-- The call and the literal of a site are real instructions. -/
theorem forNameSite?_spec {referenced : Std.HashSet NodeId} {p : Nat} {s : ForNameSite}
    (h : body.forNameSite? referenced p = some s) :
    s.position = p ∧ (body.insns.insnAt p).isReal = true ∧ (body.insns.get s.literal).isReal = true := by
  unfold forNameSite? at h
  split_ifs at h with hcall
  · obtain ⟨literal, _, h⟩ := Option.bind_eq_some_iff.mp h
    split at h
    · rename_i name hliteral
      obtain ⟨className, _, h⟩ := Option.bind_eq_some_iff.mp h
      cases h
      refine ⟨rfl, ?_, by rw [hliteral]; rfl⟩
      cases hinsn : body.insns.insnAt p with
      | invoke code index member interface => rfl
      | _ => simp [hinsn, Insn.isForName] at hcall
    · cases h

/-- Recording the sites of class look-ups places fresh instructions, and removes calls and literals. -/
theorem recorded_forNames {sites : List ForNameSite} {now : InsnList} {plan : EditPlan}
    (h : body.insns.Recorded now plan)
    (hsites : ∀ s ∈ sites, s.position < body.insns.size ∧
      (body.insns.insnAt s.position).isReal = true ∧ (body.insns.get s.literal).isReal = true) :
    body.insns.Recorded (sites.foldl (recordForName body.insns.idAt) (now, plan)).1
      (sites.foldl (recordForName body.insns.idAt) (now, plan)).2 := by
  induction sites generalizing now plan with
  | nil => exact h
  | cons first rest ih =>
    obtain ⟨⟨hinside, hcall, hliteral⟩, hrest⟩ := List.forall_mem_cons.mp hsites
    have hplaced := h.insertNew (isFresh_initializedClass first.className)
      (InsnList.mem_order.mpr ⟨first.position, hinside, rfl⟩)
    exact ih ((hplaced.remove hliteral).remove hcall) hrest

theorem replaceForNames_wellMade (ctx : MethodContext) (h : body.WellMade pool) :
    (body.replaceForNames ctx).1.WellMade pool := by
  unfold replaceForNames
  dsimp only
  split_ifs
  · exact h
  · refine h.commit (recorded_forNames (.start body.insns) fun s hs => ?_)
    obtain ⟨p, hp, hsite⟩ := List.mem_filterMap.mp (List.mem_filter.mp hs).1
    obtain ⟨rfl, hcall, hliteral⟩ := forNameSite?_spec hsite
    exact ⟨List.mem_range.mp hp, hcall, hliteral⟩

end Body

/-! ## Calls of methods -/

namespace SiteAnalysis

variable {a : SiteAnalysis} {call : Nat} {code : Span} {receiver : Nat}

theorem storedArguments_fixed {array : Option Span} (h : a.storedArguments call array = .moved code receiver) :
    ∀ q ∈ code.positions, a.isBoundary q = false := by
  unfold storedArguments at h
  split at h
  · split_ifs at h with hswap
    cases h
    simp only [canSwap, isMovable, Bool.and_eq_true, List.all_eq_true, Bool.not_eq_true'] at hswap
    exact fun q hq => hswap.1.1.1.1.2.2 q hq
  · cases h

/-- Code that moves holds no end of a region or of a local variable entry. -/
theorem arguments_fixed {length : Int32} (h : a.arguments call length = .moved code receiver) :
    ∀ q ∈ code.positions, a.isBoundary q = false := by
  unfold arguments at h
  dsimp only at h
  split_ifs at h
  · split at h
    · cases h
    · split_ifs at h
      · split at h
        · split_ifs at h
          exact storedArguments_fixed h
        · exact storedArguments_fixed h
      · exact storedArguments_fixed h

/-- Ends of local variable entries are marked. -/
theorem isBoundary_of_run {m : MethodSig} {body : Body} (h : SiteAnalysis.run m body = .ok a) {v : LocalEntry}
    (hv : v ∈ body.locals) {id : NodeId} (hid : id = v.start ∨ id = v.stop) {p : Nat}
    (hp : body.insns.positions.find? id = some p) : a.isBoundary p = true := by
  obtain ⟨constants, _, h⟩ := bind_eq_ok.mp h
  obtain ⟨sources, hsources, h⟩ := bind_eq_ok.mp h
  cases h
  obtain ⟨frames, _, hsources⟩ := bind_eq_ok.mp hsources
  obtain ⟨flow, hflow, hsources⟩ := bind_eq_ok.mp hsources
  obtain ⟨conditionals, _, hsources⟩ := bind_eq_ok.mp hsources
  cases hsources
  obtain ⟨coverages, _, hflow⟩ := bind_eq_ok.mp hflow
  cases hflow
  have hinside : p < body.insns.size := Positions.find?_lt hp
  refine Graph.getD_mark.mpr ⟨List.mem_filterMap.mpr ⟨id, List.mem_append_right _ ?_, hp⟩, hinside⟩
  refine List.mem_flatMap.mpr ⟨v, hv, ?_⟩
  rcases hid with rfl | rfl
  · exact List.mem_cons_self
  · exact List.mem_cons_of_mem _ List.mem_cons_self

end SiteAnalysis

namespace Replacement

variable {ctx : MethodContext} {a : SiteAnalysis} {body body' : Body} {decisions : List Decision}
  {plan : EditPlan}

/-- Nodes are made for fresh instructions only. -/
theorem isFresh_made (h : Replacement ctx a body body' decisions plan) {e : SiteEdit}
    (he : e ∈ a.edits decisions) : ∀ insn ∈ e.made, insn.IsFresh := by
  obtain ⟨_, _, _, site, hcarries, _⟩ := h.exists_decision he
  intro insn hinsn
  rcases List.mem_append.mp hinsn with hstore | hcode
  · cases hmove : e.move with
    | none => simp [SiteEdit.stores, hmove] at hstore
    | some move =>
      obtain ⟨_, _, _, _, _, var, hvar⟩ := hcarries.moved move.1 move.2.1 move.2.2 hmove
      obtain rfl : insn = move.2.2 := by simpa [SiteEdit.stores, hmove] using hstore
      rw [hvar]
      exact ⟨rfl, rfl⟩
  · obtain ⟨first, var, hatSite, hfirst, _⟩ := hcarries.atSite
    rw [hatSite] at hcode
    rcases List.mem_append.mp hcode with hcode | hcode
    · rcases hfirst with rfl | rfl | ⟨fresh, rfl⟩
      · cases hcode
      · obtain rfl := List.mem_singleton.mp hcode
        exact ⟨rfl, rfl⟩
      · obtain rfl := List.mem_singleton.mp hcode
        exact ⟨rfl, rfl⟩
    · exact site.isFresh_callCode var insn hcode

theorem reworked (h : Replacement ctx a body body' decisions plan) (hproper : body.insns.Proper) :
    body.insns.Reworked body'.insns plan where
  proper := h.proper hproper
  order := by rw [h.insns]
  nodes := by
    refine ⟨(a.edits decisions).flatMap (·.made), by rw [h.insns], fun insn hinsn => ?_⟩
    obtain ⟨e, he, hinsn⟩ := List.mem_flatMap.mp hinsn
    exact h.isFresh_made he insn hinsn
  old id hid := by
    rcases h.exists_draft_of_mem hid with hold | ⟨d, hd, hnew⟩
    · exact .inl hold
    · exact .inr (h.draft_bounds hd hnew).1
  labels id hid hreal := h.label_mem hproper hid hreal

/-- A node at a marked position is not placed ahead of another one. -/
theorem fixed (h : Replacement ctx a body body' decisions plan) (hproper : body.insns.Proper) {p : Nat}
    (hp : p < body.insns.size) (hboundary : a.isBoundary p = true) (anchor : NodeId) :
    body.insns.idAt p ∉ plan.insertedBefore anchor := by
  intro hplaced
  have hold := hproper.idAt_lt hp
  obtain ⟨d, hd, ⟨ids, store, hmove, hmem | hmem⟩ | ⟨_, hmem⟩⟩ := h.placed_cases hplaced
  · obtain ⟨c, hc, hedit⟩ := List.mem_filterMap.mp (mem_edits hd)
    obtain ⟨site, fresh, hverdict, heq, _, _⟩ := h.carries_of_edit hc hedit
    obtain ⟨spent, frame, _, hplan⟩ := h.planned c hc site fresh hverdict
    obtain ⟨_, length, _, _, harguments⟩ := (SiteAnalysis.planned_of_plan hplan).known
    rw [heq] at hmove
    obtain ⟨code, receiver, hmoved, _, rfl, _⟩ := PlannedSite.moved_of_edit hmove
    have hmoves := harguments.symm.trans hmoved
    obtain ⟨q, hq, hidAt⟩ := List.mem_map.mp hmem
    have hfixed := SiteAnalysis.arguments_fixed hmoves q hq
    have hinside : q < body.insns.size := by
      have hcarried := a.arguments_carried c.position length
      rw [hmoves] at hcarried
      cases hcarried with
      | moved hswaps =>
        have hstop := (SiteAnalysis.spanOf_bounds hswaps.array).2
        have hcall := (h.call_lt hc).1
        have hcode := (Span.mem_positions.mp hq).2
        omega
    obtain rfl : q = p := hproper.idAt_inj hinside hp (h.idAt q ▸ hidAt)
    rw [hboundary] at hfixed
    cases hfixed
  · have hnew := (h.draft_bounds hd (List.mem_append_left _ hmem)).1
    omega
  · have hnew := (h.draft_bounds hd (List.mem_append_right _ hmem)).1
    omega

end Replacement

namespace Body

variable {pool : ConstantPool} {body body' : Body}

theorem locals_replaceInvokes {ctx : MethodContext} {outcomes : List SiteOutcome}
    (h : body.replaceInvokes ctx = .ok (body', outcomes)) : body'.locals = body.locals := by
  unfold replaceInvokes at h
  split_ifs at h
  · cases h
    rfl
  · obtain ⟨a, _, h⟩ := bind_eq_ok.mp h
    dsimp only at h
    split_ifs at h
    · cases h
      rfl
    · cases h
      rfl

theorem replaceInvokes_wellMade {ctx : MethodContext} {outcomes : List SiteOutcome} (h : body.WellMade pool)
    (hreplaced : body.replaceInvokes ctx = .ok (body', outcomes)) : body'.WellMade pool := by
  rcases replacement_of_replaceInvokes h.proper hreplaced with ⟨rfl, _⟩ | ⟨a, decisions, plan, hreplacement, _⟩
  · exact h
  · refine h.rework (hreplacement.reworked h.proper) (locals_replaceInvokes hreplaced) fun v hv anchor => ?_
    have hfixed : ∀ id ∈ body.insns.order, id = v.start ∨ id = v.stop → id ∉ plan.insertedBefore anchor := by
      intro id hid hend
      obtain ⟨p, hp, rfl⟩ := InsnList.mem_order.mp hid
      exact hreplacement.fixed h.proper hp (SiteAnalysis.isBoundary_of_run hreplacement.analysis hv hend
        (h.proper.find?_idAt hp)) anchor
    obtain ⟨hstart, hstop⟩ := (h.locals v hv).placed
    exact ⟨hfixed _ hstart (.inl rfl), hfixed _ hstop (.inr rfl)⟩

/-- Replacing calls keeps a body well made. -/
theorem replaceCalls_wellMade {ctx : MethodContext} {passes : List Pass} {outcomes : List SiteOutcome}
    (h : body.WellMade pool) (hreplaced : body.replaceCalls ctx passes = .ok (body', outcomes)) :
    body'.WellMade pool := by
  unfold replaceCalls at hreplaced
  obtain ⟨named, sites, hnamed⟩ : ∃ named sites,
      (if passes.contains .forName then body.replaceForNames ctx else (body, [])) = (named, sites) :=
    ⟨_, _, rfl⟩
  have hnamedMade : named.WellMade pool := by
    split_ifs at hnamed
    · have hkept := replaceForNames_wellMade ctx h
      rwa [hnamed] at hkept
    · cases hnamed
      exact h
  rw [hnamed] at hreplaced
  dsimp only at hreplaced
  split_ifs at hreplaced
  · obtain ⟨⟨after, more⟩, hinvokes, hreplaced⟩ := bind_eq_ok.mp hreplaced
    cases hreplaced
    exact replaceInvokes_wellMade hnamedMade hinvokes
  · cases hreplaced
    exact hnamedMade

/-! ## Pruning -/

theorem isReal_of_unreachable {dead : List NodeId} (h : body.unreachable = .ok dead) :
    ∀ id ∈ dead, (body.insns.get id).isReal = true := by
  obtain ⟨g, _, h⟩ := bind_eq_ok.mp h
  cases h
  intro id hid
  obtain ⟨b, _, hid⟩ := List.mem_flatMap.mp hid
  exact (List.mem_filter.mp hid).2

theorem WellMade.withRegions (h : body.WellMade pool) (regions : List Region) :
    ({ body with regions := regions } : Body).WellMade pool :=
  ⟨h.proper, h.insns, h.locals⟩

theorem dropEmptyRegions_wellMade (h : body.WellMade pool) (hdropped : body.dropEmptyRegions = .ok body') :
    body'.WellMade pool := by
  obtain ⟨kept, _, hdropped⟩ := bind_eq_ok.mp hdropped
  cases hdropped
  exact h.withRegions kept

theorem pruneRounds_wellMade {rounds removed removed' : Nat} (h : body.WellMade pool)
    (hpruned : body.pruneRounds rounds removed = .ok (body', removed')) : body'.WellMade pool := by
  induction rounds generalizing body removed with
  | zero =>
    cases hpruned
    exact h
  | succ rounds ih =>
    obtain ⟨covered, hcovered, hpruned⟩ := bind_eq_ok.mp hpruned
    have hmade := dropEmptyRegions_wellMade h hcovered
    obtain ⟨dead, hdead, hpruned⟩ := bind_eq_ok.mp hpruned
    split_ifs at hpruned
    · cases hpruned
      exact hmade
    · have hrecorded := (InsnList.Recorded.start covered.insns).removeAll (isReal_of_unreachable hdead)
      exact ih (hmade.commit hrecorded) hpruned

theorem pruneUnreachable_wellMade {removed : Nat} (h : body.WellMade pool)
    (hpruned : body.pruneUnreachable = .ok (body', removed)) : body'.WellMade pool :=
  pruneRounds_wellMade h hpruned

theorem pruneHandlersFrom_wellMade {hierarchy : Hierarchy} {rounds removed removed' : Nat}
    {rejected : List HandlerGroup} (h : body.WellMade pool)
    (hpruned : pruneHandlersFrom hierarchy rounds rejected body removed = .ok (body', removed')) :
    body'.WellMade pool := by
  induction rounds generalizing body removed rejected with
  | zero =>
    cases hpruned
    exact h
  | succ rounds ih =>
    unfold pruneHandlersFrom at hpruned
    split at hpruned
    · cases hpruned
      exact h
    · obtain ⟨⟨after, dead⟩, hafter, hpruned⟩ := bind_eq_ok.mp hpruned
      exact ih (pruneUnreachable_wellMade (h.withRegions _) hafter) hpruned

/-- Pruning keeps a body well made. -/
theorem prune_wellMade {hierarchy : Hierarchy} (h : body.WellMade pool)
    (hpruned : body.prune hierarchy = .ok body') : body'.WellMade pool := by
  obtain ⟨⟨handled, _⟩, hhandled, hpruned⟩ := bind_eq_ok.mp hpruned
  obtain ⟨⟨after, _⟩, hafter, hpruned⟩ := bind_eq_ok.mp hpruned
  cases hpruned
  exact pruneUnreachable_wellMade (pruneHandlersFrom_wellMade h hhandled) hafter

/-- What is made of decoded code can be written. -/
theorem sound_of_rewrite {code : CodeAttribute} {replaced : Body} {ctx : MethodContext} {passes : List Pass}
    {outcomes : List SiteOutcome} {hierarchy : Hierarchy} (hdecode : Body.decode pool code = .ok body)
    (hreplaced : body.replaceCalls ctx passes = .ok (replaced, outcomes))
    (hpruned : replaced.prune hierarchy = .ok body') : body'.Sound pool :=
  (prune_wellMade (replaceCalls_wellMade (wellMade_of_decode hdecode) hreplaced) hpruned).sound

end Body

end DirectCall
