import DirectCall.Proofs.CallSite.Apart
import DirectCall.Proofs.CallSite.ClassSites
import DirectCall.Proofs.CallSite.Order
import DirectCall.Proofs.Sources.Evidence

/-!
# Clean cuts

When calls are replaced, the code of their method objects and of their arguments goes away or moves
(`Body.cuts`). The cut is clean if what goes away leaves no value behind that anything else takes, and what moves can
run where it moves to (`Body.CleanCut`). What a label marks is never cut, since code that moves begins with a real
instruction, no region begins or ends in it, and no jump from elsewhere leads into it (`Replacement.cuts_label`).
-/

namespace DirectCall

open SourceAnalysis (domainOf)
open SourceValue (uncut)
open Frame (keptWidths)

/-! ## Where operand code begins -/

theorem SourceAnalysis.isReal_of_isConditional {insn : Insn} (h : isConditional insn = true) :
    insn.isReal = true := by
  cases insn <;> first | rfl | cases h

namespace SourceAnalysis

variable {m : MethodSig} {body : Body} {a : SourceAnalysis}

/-- All producers of a value are real instructions. -/
def RealProducers (body : Body) (v : SourceValue) : Prop :=
  ∀ id ∈ v.producers, (body.insns.get id).isReal = true

theorem RealProducers.join {v w : SourceValue} (hv : RealProducers body v) (hw : RealProducers body w) :
    RealProducers body (v.join w) :=
  fun id hid => (SourceValue.mem_union.mp hid).elim (hv id) (hw id)

theorem realProducers_none (body : Body) (width : Nat) : RealProducers body ⟨width, []⟩ :=
  fun _ hid => absurd hid List.not_mem_nil

theorem realProducers_keepsAt (h : run m body = .ok a) (size q : Nat)
    (hreal : (a.flow.insnAt q).opcode?.isSome = true) :
    (SourceValue.domain size).KeepsAt (RealProducers body) (a.flow.idAt q) (a.flow.insnAt q) := by
  refine keepsAt_of (realProducers_none body) fun _ id hid => ?_
  obtain rfl := List.mem_singleton.mp hid
  have hflow := (run_eq_ok h).2.1
  obtain ⟨code, hcode⟩ := Option.isSome_iff_exists.mp hreal
  rw [Flow.insnAt_of_ofBody hflow] at hcode
  rw [Flow.idAt_of_ofBody hflow]
  exact isReal_of_opcode? hcode

theorem used_realProducers (h : run m body = .ok a) {p : Nat} {v : SourceValue} (hv : v ∈ a.consumedAt p) :
    RealProducers body v := by
  obtain ⟨hframes, hflow, _⟩ := run_eq_ok h
  obtain ⟨_, entry, _, hentry, _⟩ := Frame.analyze_closed (SourceValue.joinBounds _) hframes
  have hkeeps : Frame.KeepsAll (domainOf body) a.flow (RealProducers body) :=
    Frame.keepsAll_of_keepsAt (fun q _ hreal => realProducers_keepsAt h _ q hreal) fun _ _ _ =>
      realProducers_none body _
  have hall := Frame.analyze_invariant hframes hflow hentry
    (Q := fun q g => q < a.flow.size ∧ g.All (RealProducers body))
    (fun _ _ _ _ hf hg hjoined => ⟨hf.1, hf.2.join (fun _ _ => RealProducers.join) hg.2 hjoined⟩)
    ⟨(Frame.settle_of_analyze hframes hflow hentry).1, Frame.entry_all (realProducers_none body _)
      (realProducers_none body _) (fun _ _ _ _ => realProducers_none body _) hentry⟩
    (fun _ _ _ _ hbefore hmove hpass => ⟨hmove.target_lt hflow, hkeeps.pass hbefore.1 hbefore.2 hmove hpass⟩)
  rw [consumedAt_final h p] at hv
  cases hf : a.frames.getD p none with
  | none => simp [hf] at hv
  | some f =>
    rw [hf] at hv
    exact usedBy_all (fun _ _ => RealProducers.join) (realProducers_keepsAt h 0 p) (hall p f hf).2 v hv

/-- Only real instructions have a part in what an instruction uses. -/
theorem evidence_real (h : run m body = .ok a) (hproper : body.insns.Proper) {consumer : Nat} {slots : List Nat}
    {p : Nat} (hp : p ∈ a.evidence consumer slots) : (body.insns.insnAt p).isReal = true := by
  have hflow := (run_eq_ok h).2.1
  suffices hreals : a.IsEvidence consumer slots {p | (body.insns.insnAt p).isReal = true} from
    (evidence_isLeast h consumer slots).1.2 hreals hp
  constructor
  · intro v hv id hid
    obtain ⟨p, _, hfind⟩ := (hv.placed h).found id hid
    refine ⟨p, ?_, hfind⟩
    rw [Flow.positions_of_ofBody hflow, Flow.list_of_ofBody hflow] at hfind
    obtain ⟨horder, rfl⟩ := hproper.find?_eq_some.mp hfind
    show (body.insns.get (body.insns.idAt _)).isReal = true
    rw [(hproper.rank_lt horder).2]
    rcases hv with ⟨slot, _, hslot⟩ | ⟨q, _, hused⟩
    · exact used_realProducers h (List.mem_of_getElem? hslot) _ hid
    · exact used_realProducers h hused _ hid
  · intro v _ _ id _ q _ branch target hbranch _ _
    have hreal := isReal_of_isConditional hbranch.conditional
    rwa [Flow.insnAt_of_ofBody hflow] at hreal

end SourceAnalysis

namespace SiteAnalysis

variable {m : MethodSig} {body : Body} {a : SiteAnalysis} {call consumer slot arity : Nat} {code s : Span}

theorem withElementStores_start (a : SiteAnalysis) (settled : List SourceValue) (count : Nat) (s : Span) :
    (a.withElementStores consumer settled count s).start = s.start := by
  induction count generalizing s with
  | zero => rfl
  | succ count ih =>
    rw [withElementStores]
    split
    · rw [ih]
    · rfl

/-- The code of an operand begins with a real instruction. -/
theorem isReal_start (h : run m body = .ok a) (hproper : body.insns.Proper)
    (hs : a.spanOf consumer slot arity = some s) : (body.insns.insnAt s.start).isReal = true := by
  obtain ⟨operand, hoperand, hs⟩ := Option.bind_eq_some_iff.mp hs
  obtain ⟨settled, _, hs⟩ := Option.bind_eq_some_iff.mp hs
  have hstart : operand.start = s.start := by
    simp only [pure, Option.some.injEq] at hs
    rw [← hs]
    rw [withElementStores_start]
  obtain ⟨values, _, hoperand⟩ := Option.bind_eq_some_iff.mp hoperand
  obtain ⟨start, hhead, hoperand⟩ := Option.bind_eq_some_iff.mp hoperand
  obtain ⟨last, _, hoperand⟩ := Option.bind_eq_some_iff.mp hoperand
  obtain ⟨producer, _, hoperand⟩ := Option.bind_eq_some_iff.mp hoperand
  dsimp only at hoperand
  split_ifs at hoperand
  obtain rfl := Option.some.inj hoperand
  obtain rfl : start = s.start := hstart
  exact SourceAnalysis.evidence_real (sources_of_run h).1 hproper (List.mem_of_head? hhead)

/-- Every node that a table names has its place marked. -/
theorem marks_regions (h : run m body = .ok a) (hproper : body.insns.Proper) {r : Region} (hr : r ∈ body.regions)
    {q : Nat} (hq : q < body.insns.size) : (body.insns.idAt q = r.handler → a.isHandler q = true) ∧
      (body.insns.idAt q = r.start ∨ body.insns.idAt q = r.stop → a.isBoundary q = true) := by
  have hflow := (flow_of_run h).1
  have hsize := Flow.size_of_ofBody hflow
  have hpositions : a.flow.positions = body.insns.positions := by
    rw [Flow.positions_of_ofBody hflow, Flow.list_of_ofBody hflow]
  have hfind := hproper.find?_idAt hq
  rw [← hpositions] at hfind
  rw [← hsize] at hq
  obtain ⟨constants, _, h⟩ := bind_eq_ok.mp h
  obtain ⟨sources, _, h⟩ := bind_eq_ok.mp h
  cases h
  refine ⟨fun hid => ?_, fun hid => ?_⟩
  · exact Graph.getD_mark.mpr ⟨List.mem_filterMap.mpr ⟨r.handler, List.mem_map_of_mem hr, hid ▸ hfind⟩, hq⟩
  · refine Graph.getD_mark.mpr ⟨List.mem_filterMap.mpr ⟨body.insns.idAt q, List.mem_append_left _ ?_, hfind⟩, hq⟩
    refine List.mem_flatMap.mpr ⟨r, hr, ?_⟩
    rcases hid with hid | hid
    · rw [hid]
      exact List.mem_cons_self
    · rw [hid]
      exact List.mem_cons_of_mem _ List.mem_cons_self

/-- No region begins, ends or is handled in code that can move. -/
theorem not_marked_of_isMovable (h : run m body = .ok a) (hproper : body.insns.Proper)
    (hmovable : a.isMovable code call slot arity = true) {q : Nat} (hq : q < body.insns.size)
    (hcode : code.contains q = true) {r : Region} (hr : r ∈ body.regions) :
    body.insns.idAt q ≠ r.start ∧ body.insns.idAt q ≠ r.stop ∧ body.insns.idAt q ≠ r.handler := by
  obtain ⟨hhandler, hboundary⟩ := marks_regions h hproper hr hq
  simp only [isMovable, Bool.and_eq_true, Bool.not_eq_true', List.all_eq_true] at hmovable
  obtain ⟨⟨hremovable, hstart⟩, hinside⟩ := hmovable
  have hopen := hinside q (Span.mem_positions.mpr (contains_iff.mp hcode))
  refine ⟨fun hid => ?_, fun hid => ?_, fun hid => ?_⟩
  · rw [hboundary (.inl hid)] at hopen
    cases hopen
  · rw [hboundary (.inr hid)] at hopen
    cases hopen
  · have hclosed := (spec_of_isRemovable hremovable hcode).2
    simp only [isClosedAt, Bool.or_eq_true, beq_iff_eq, Bool.and_eq_true, Bool.not_eq_true', hhandler hid,
      Bool.true_eq_false, false_and, or_false] at hclosed
    rw [← hclosed, hhandler hid] at hstart
    cases hstart

/-- A jump into code that can go away leads to its start, or it comes from the code itself. -/
theorem start_or_contains_of_jump (h : run m body = .ok a) (hproper : body.insns.Proper)
    (hremovable : a.isRemovable code call slot arity = true) {p q : Nat} (hp : p < body.insns.size)
    (hq : q < body.insns.size) (hcode : code.contains q = true)
    (htarget : body.insns.idAt q ∈ (body.insns.insnAt p).targets) : q = code.start ∨ code.contains p = true := by
  have hflow := (flow_of_run h).1
  have hsize := Flow.size_of_ofBody hflow
  have hjump : p ∈ (incomingJumps a.flow).getD q [] := by
    refine mem_incomingJumps (hsize ▸ hp) (hsize ▸ hq) (List.mem_filterMap.mpr ⟨body.insns.idAt q, ?_, ?_⟩)
    · rwa [Flow.insnAt_of_ofBody hflow]
    · rw [Flow.positions_of_ofBody hflow, Flow.list_of_ofBody hflow, hproper.find?_idAt hq]
  have hincoming : a.incoming = incomingJumps a.flow := by
    obtain ⟨constants, _, h⟩ := bind_eq_ok.mp h
    obtain ⟨sources, _, h⟩ := bind_eq_ok.mp h
    cases h
    rfl
  have hclosed := (spec_of_isRemovable hremovable hcode).2
  simp only [isClosedAt, Bool.or_eq_true, beq_iff_eq, Bool.and_eq_true, List.all_eq_true, hincoming] at hclosed
  exact hclosed.imp_right fun hclosed => hclosed.2 p hjump

end SiteAnalysis

namespace PlannedSite

/-- The array is left on the stack for the code at the call. -/
def keepsArray (p : PlannedSite) : Bool :=
  match p.arguments with
  | .none none => true
  | .stored => true
  | _ => false

end PlannedSite

namespace Body

/-- The instruction goes away or moves when calls are replaced. A call that is replaced does not count. -/
def cuts (ctx : MethodContext) (body body' : Body) (a : SiteAnalysis) (id : NodeId) : Bool :=
  ((Planning.run ctx a body).edits.any fun e => e.movedIds.contains id) ||
    (decide (id ∉ body'.insns.order) && !(body.insns.get id).isReflectiveInvoke)

/-- At a replaced call the method object is not kept, and the array only if the code at the call takes it. The
receiver is kept, and so is a local from which the array is loaded. -/
structure CleanCall (kept : SourceValue → Bool) (site : PlannedSite) (before : Frame SourceValue) : Prop where
  operands : (before.stack.take 3).map kept = [site.keepsArray, true, false]
  stored : site.arguments = .stored → ∀ array ∈ before.stack.head?, array.size = 1
  loaded : ∀ var load, site.arguments = .inLocal var load →
    ∃ v, before.locals[var.toNat]? = some v ∧ kept v = true ∧ v.size = 1
  returns : ')' ∉ site.parsed.ret.toList

/-- Code that moves is still there, and it can run where it moves to, ahead of an instruction that stays. -/
structure CleanMove (ctx : MethodContext) (body body' : Body) (a : SiteAnalysis) (code : Span) (receiver : Nat) :
    Prop where
  stays : body.cuts ctx body' a (body.insns.idAt receiver) = false
  there : ∀ q ∈ code.positions, body.insns.idAt q ∈ body'.insns.order
  apart : ∃ height, a.sources.RunsApart body (uncut (body.cuts ctx body' a)) code height receiver

/-- What goes away or moves leaves nothing behind, and nothing else needs it. A value is kept if no producer of it
is cut. -/
structure CleanCut (ctx : MethodContext) (body body' : Body) (a : SiteAnalysis) : Prop where
  widths : a.sources.WidthsMeet ctx.method body
  takes : ∀ q < body.insns.size, body.cuts ctx body' a (body.insns.idAt q) = false →
    body.insns.idAt q ∈ body'.insns.order →
      a.sources.TakesKept body.insns.nodes.size (uncut (body.cuts ctx body' a)) q
  hands : ∀ q < body.insns.size, body.cuts ctx body' a (body.insns.idAt q) = false →
    a.sources.HandsOnKept body.insns.nodes.size (uncut (body.cuts ctx body' a)) q
  skips : ∀ q < body.insns.size, body.cuts ctx body' a (body.insns.idAt q) = true →
    a.sources.SkipsKept (uncut (body.cuts ctx body' a)) q
  calls : ∀ p frame site before, body.ReplacedAt body' p → a.constants.getD p none = some frame →
    a.Planned ctx p frame site → a.sources.frameAt p = some before →
      CleanCall (uncut (body.cuts ctx body' a)) site before
  moves : ∀ p frame site code receiver, body.ReplacedAt body' p → a.constants.getD p none = some frame →
    a.Planned ctx p frame site → site.arguments = .moved code receiver →
      body.CleanMove ctx body' a code receiver

end Body

namespace Replacement

variable {ctx : MethodContext} {a : SiteAnalysis} {body body' : Body} {decisions : List Decision}
  {plan : EditPlan} {d d' : Draft} (h : Replacement ctx a body body' decisions plan)
  (hdecides : Planning.Decides ctx a body a.reachedCalls decisions (Planning.run ctx a body))

include h hdecides

theorem cuts_iff {id : NodeId} : body.cuts ctx body' a id = true ↔
    plan.moved.contains id = true ∨ id ∉ body'.insns.order ∧ (body.insns.get id).isReflectiveInvoke = false := by
  have hedits : (Planning.run ctx a body).edits.reverse = a.edits decisions := hdecides.edits
  rw [Body.cuts, Bool.or_eq_true, Bool.and_eq_true, decide_eq_true_eq, Bool.not_eq_true', List.any_eq_true, h.moved,
    ← hedits]
  simp only [List.mem_reverse, List.contains_iff_mem]

/-- An instruction that is cut moves or is removed. -/
theorem cuts_cases (hproper : body.insns.Proper) {q : Nat} (hq : q < body.insns.size)
    (hcut : body.cuts ctx body' a (body.insns.idAt q) = true) :
    plan.moved.contains (body.insns.idAt q) = true ∨ plan.removed.contains (body.insns.idAt q) = true := by
  refine ((h.cuts_iff hdecides).mp hcut).imp_right fun hgone => ?_
  rw [← Bool.not_eq_false]
  exact fun hkept => hgone.1 (h.mem_of_kept hproper (InsnList.mem_order.mpr ⟨q, hq, rfl⟩) hkept)

/-- An instruction that is not cut stays, or it is a call that is replaced. -/
theorem uncut_cases (hproper : body.insns.Proper) {q : Nat} (hq : q < body.insns.size)
    (hcut : body.cuts ctx body' a (body.insns.idAt q) = false) :
    plan.moved.contains (body.insns.idAt q) = false ∧
      (plan.removed.contains (body.insns.idAt q) = false ∧ body.insns.idAt q ∈ body'.insns.order ∨
        ∃ d ∈ Draft.ofEdits body.insns.nodes.size (a.edits decisions), d.edit.site = body.insns.idAt q) := by
  rw [← Bool.not_eq_true, h.cuts_iff hdecides, not_or, Bool.not_eq_true] at hcut
  refine ⟨hcut.1, ?_⟩
  cases hremoved : plan.removed.contains (body.insns.idAt q) with
  | false => exact .inl ⟨rfl, h.mem_of_kept hproper (InsnList.mem_order.mpr ⟨q, hq, rfl⟩) hremoved⟩
  | true =>
    obtain ⟨p, hp, heq, _, ⟨e, he, hsite⟩ | ⟨hother, _⟩⟩ := h.removed_cases hremoved
    · obtain ⟨d, hd, rfl⟩ := exists_draft_of_edit he
      exact .inr ⟨d, hd, hsite.symm⟩
    · obtain rfl := hproper.idAt_inj hq hp heq
      exact absurd ⟨h.not_mem_of_removed hremoved, hother⟩ hcut.2

omit hdecides in
/-- What stands ahead of a node: nothing, the code of the call that is there, or code that moves. -/
theorem insertedBefore_cases (hproper : body.insns.Proper) (id : NodeId) :
    plan.insertedBefore id = [] ∨ ∃ d ∈ Draft.ofEdits body.insns.nodes.size (a.edits decisions),
      (d.edit.site = id ∧ plan.insertedBefore id = d.block) ∨
        ∃ ids store, d.edit.move = some (id, ids, store) ∧ plan.insertedBefore id = ids ++ d.stores := by
  rcases List.eq_nil_or_concat (plan.insertedBefore id) with hnone | ⟨_, n, hsome⟩
  · exact .inl hnone
  have hn : n ∈ plan.insertedBefore id := by simp [hsome]
  obtain ⟨d, hd, ⟨ids, store, hmove, _⟩ | ⟨rfl, _⟩⟩ := h.placed_cases hn
  · exact .inr ⟨d, hd, .inr ⟨ids, store, hmove, h.insertedBefore_anchor hproper hd hmove⟩⟩
  · exact .inr ⟨d, hd, .inl ⟨rfl, h.insertedBefore_site hproper hd⟩⟩

end Replacement

/-! ## What the code at a call finds -/

namespace Body.CleanCall

variable {kept : SourceValue → Bool} {site : PlannedSite} {before : Frame SourceValue}

theorem exists_operands (h : CleanCall kept site before) : ∃ array receiver method rest,
    before.stack = array :: receiver :: method :: rest ∧ kept array = site.keepsArray ∧ kept receiver = true ∧
      kept method = false := by
  have hoperands := h.operands
  match hstack : before.stack with
  | [] | [_] | [_, _] =>
    rw [hstack] at hoperands
    simp at hoperands
  | array :: receiver :: method :: rest =>
    rw [hstack] at hoperands
    simp only [List.take_succ_cons, List.take_zero, List.map_cons, List.map_nil, List.cons.injEq, and_true] at hoperands
    exact ⟨array, receiver, method, rest, rfl, hoperands⟩

/-- The code at a call finds the operands that are kept, with the widths that it works on. -/
theorem exists_findsWidths (h : CleanCall kept site before) {count : Nat} (hcount : before.locals.size ≤ count)
    {fresh : UInt16} (hfresh : site.needsLocal = true → before.locals.size ≤ fresh.toNat ∧ fresh.toNat < count) :
    ∃ receiver W, site.FindsWidths kept count before.locals fresh receiver W ∧
      keptWidths kept before.stack = W ++ keptWidths kept (before.stack.drop 3) := by
  obtain ⟨array, receiver, method, rest, hstack, harray, hreceiver, hmethod⟩ := h.exists_operands
  have hwidths : keptWidths kept before.stack =
      (if site.keepsArray then [array.size, receiver.size] else [receiver.size]) ++
        keptWidths kept (before.stack.drop 3) := by
    rw [hstack]
    unfold keptWidths
    rw [List.filter_cons, List.filter_cons, List.filter_cons, harray, hreceiver, hmethod]
    cases site.keepsArray <;> rfl
  refine ⟨receiver.size, _, ?_, hwidths⟩
  unfold PlannedSite.FindsWidths
  unfold PlannedSite.keepsArray
  unfold PlannedSite.needsLocal at hfresh
  cases harguments : site.arguments with
  | none code =>
    cases code with
    | none => exact ⟨array.size, rfl⟩
    | some code => rfl
  | inLocal var load =>
    obtain ⟨v, hv, hkept, hsize⟩ := h.loaded var load harguments
    exact ⟨rfl, (Array.getElem?_eq_some_iff.mp hv).1.trans_le hcount, .inr ⟨v, hv, hkept, hsize⟩⟩
  | stored =>
    rw [harguments] at hfresh
    have hsize : array.size = 1 := h.stored harguments array (by simp [hstack])
    exact ⟨by simp [hsize], hfresh rfl⟩
  | moved code start =>
    rw [harguments] at hfresh
    exact ⟨rfl, hfresh rfl⟩

end Body.CleanCall

namespace Replacement

variable {ctx : MethodContext} {a : SiteAnalysis} {body body' : Body} {decisions : List Decision}
  {plan : EditPlan} {d d' : Draft} (h : Replacement ctx a body body' decisions plan)

include h

theorem flow_eq (p : Nat) :
    a.sources.flow.idAt p = body.insns.idAt p ∧ a.sources.flow.insnAt p = body.insns.insnAt p := by
  have hflow := (SiteAnalysis.sources_of_run h.analysis).2
  exact ⟨hflow ▸ h.idAt p, hflow ▸ h.insnAt p⟩

/-- Old nodes keep their instruction where they stand. -/
theorem get_flow (hproper : body.insns.Proper) {p : Nat} (hp : p < body.insns.size) :
    body'.insns.get (a.sources.flow.idAt p) = a.sources.flow.insnAt p := by
  rw [(h.flow_eq p).1, (h.flow_eq p).2]
  exact h.get_of_lt (hproper.idAt_lt hp)

/-- The call of a draft, with its plan. -/
theorem exists_replaced (hd : d ∈ Draft.ofEdits body.insns.nodes.size (a.edits decisions)) :
    ∃ p site fresh frame, body.ReplacedAt body' p ∧ d.edit = site.edit a fresh ∧ d.edit.site = body.insns.idAt p ∧
      a.constants.getD p none = some frame ∧ a.Planned ctx p frame site ∧
        (site.needsLocal = true → fresh ∈ body.addedStores body') := by
  obtain ⟨c, hc, site, fresh, frame, hverdict, hedit, hsite, hframe, hplanned⟩ := h.exists_site hd
  obtain ⟨hinside, hreflective⟩ := h.call_lt hc
  refine ⟨c.position, site, fresh, frame, ⟨hinside, hreflective, ?_⟩, hedit, hsite, hframe, hplanned, fun hneeds => ?_⟩
  · exact h.not_mem_of_removed (h.removes _ (mem_edits hd) _ (.inl hsite.symm))
  · rw [h.addedStores_eq, List.filterMap_flatMap]
    refine List.mem_flatMap.mpr ⟨d.edit, mem_edits hd, ?_⟩
    rw [hedit, site.stores_of_edit, if_pos hneeds]
    exact List.mem_cons_self

/-- Code that moves can change places with the receiver. -/
theorem exists_canSwap (hd : d ∈ Draft.ofEdits body.insns.nodes.size (a.edits decisions)) {anchor : NodeId}
    {ids : List NodeId} {store : Insn} (hmove : d.edit.move = some (anchor, ids, store)) :
    ∃ p code receiver, p < body.insns.size ∧ a.canSwap p code receiver = true ∧
      a.spanOf p 2 SiteAnalysis.invokeArity = some code ∧ a.spanOf p 1 SiteAnalysis.invokeArity = some receiver ∧
        anchor = body.insns.idAt receiver.start ∧ ids = code.positions.map body.insns.idAt := by
  obtain ⟨p, site, fresh, frame, hreplaced, hedit, _, _, hplanned, _⟩ := h.exists_replaced hd
  rw [hedit] at hmove
  obtain ⟨code, start, harguments, rfl, rfl, rfl⟩ := PlannedSite.moved_of_edit hmove
  obtain ⟨_, length, _, _, hlength⟩ := hplanned.known
  obtain ⟨harray, receiver, hreceiver, rfl, hswap⟩ := SiteAnalysis.canSwap_of_storedArguments
    (SiteAnalysis.storedArguments_of_moved (hlength.symm.trans harguments))
  exact ⟨p, code, receiver, hreplaced.1, hswap, harray, hreceiver, h.idAt _, List.map_congr_left fun q _ => h.idAt q⟩

/-- Code moves ahead of a real instruction, as the plan of its call says. -/
theorem exists_cleanMove (hproper : body.insns.Proper) (hclean : body.CleanCut ctx body' a)
    (hd : d ∈ Draft.ofEdits body.insns.nodes.size (a.edits decisions)) {anchor : NodeId} {ids : List NodeId}
    {store : Insn} (hmove : d.edit.move = some (anchor, ids, store)) :
    ∃ code receiver fresh node, body.CleanMove ctx body' a code receiver ∧ anchor = body.insns.idAt receiver ∧
      (body.insns.insnAt receiver).isReal = true ∧ ids = code.positions.map body.insns.idAt ∧ d.stores = [node] ∧
        body'.insns.get node = .var Opcode.astore fresh ∧ fresh ∈ body.addedStores body' ∧
          code.start < code.stop ∧ code.stop ≤ body.insns.size ∧ receiver < code.start := by
  obtain ⟨p, site, fresh, frame, hreplaced, hedit, hsite, hframe, hplanned, hfresh⟩ := h.exists_replaced hd
  have hmove' := hmove
  rw [hedit] at hmove'
  obtain ⟨code, start, harguments, rfl, rfl, rfl⟩ := PlannedSite.moved_of_edit hmove'
  obtain ⟨_, length, _, _, hlength⟩ := hplanned.known
  have hstored := SiteAnalysis.storedArguments_of_moved (hlength.symm.trans harguments)
  have hswaps := SiteAnalysis.storedArguments_eq_moved hstored
  obtain ⟨_, receiver, hreceiver, rfl, _⟩ := SiteAnalysis.canSwap_of_storedArguments hstored
  have hbounds := SiteAnalysis.spanOf_bounds hswaps.array
  have hget := (h.map_get hd).1
  rw [SiteEdit.stores, hmove, Option.map_some, Option.toList_some] at hget
  obtain ⟨node, rest, hstores, hnode, hrest⟩ := List.map_eq_cons_iff.mp hget
  rw [List.map_eq_nil_iff.mp hrest] at hstores
  have hinside := hreplaced.1
  exact ⟨code, receiver.start, fresh, node,
    hclean.moves p frame site code receiver.start hreplaced hframe hplanned harguments, h.idAt receiver.start,
    SiteAnalysis.isReal_start h.analysis hproper hreceiver, List.map_congr_left fun q _ => h.idAt q, hstores, hnode,
    hfresh (by rw [PlannedSite.needsLocal, harguments]), hbounds.1, by omega, hswaps.ahead⟩

/-- Where a region begins, ends or is handled stays, and where a jump that stays leads to. -/
theorem cuts_label (hdecides : Planning.Decides ctx a body a.reachedCalls decisions (Planning.run ctx a body))
    (hproper : body.insns.Proper) {id : NodeId} (hmem : id ∈ body.insns.order) (hlabel : body.insns.get id = .label)
    (hnamed : (∃ r ∈ body.regions, id = r.start ∨ id = r.stop ∨ id = r.handler) ∨
      ∃ q < body.insns.size, body.cuts ctx body' a (body.insns.idAt q) = false ∧ id ∈ (body.insns.insnAt q).targets) :
    body.cuts ctx body' a id = false := by
  rw [Bool.eq_false_iff]
  intro hcut
  have hmoved := ((h.cuts_iff hdecides).mp hcut).resolve_right fun hgone =>
    hgone.1 (h.label_mem hproper hmem (by rw [hlabel]; rfl))
  obtain ⟨e, he, hid⟩ := (h.moved id).mp hmoved
  obtain ⟨d, hd, rfl⟩ := exists_draft_of_edit he
  unfold SiteEdit.movedIds at hid
  cases hmove : d.edit.move with
  | none => simp [hmove] at hid
  | some move =>
    obtain ⟨anchor, ids, store⟩ := move
    obtain ⟨p, code, receiver, hp, hswap, harray, _, _, rfl⟩ := h.exists_canSwap hd hmove
    rw [hmove, Option.map_some, Option.getD_some] at hid
    obtain ⟨t, ht, rfl⟩ := List.mem_map.mp hid
    have hbounds := SiteAnalysis.spanOf_bounds harray
    have hinside := Span.mem_positions.mp ht
    have hcode := SiteAnalysis.contains_iff.mpr hinside
    simp only [SiteAnalysis.canSwap, Bool.and_eq_true] at hswap
    obtain ⟨⟨⟨⟨⟨_, hmovable⟩, _⟩, _⟩, _⟩, _⟩ := hswap
    rcases hnamed with ⟨r, hr, hid⟩ | ⟨q, hq, hstays, htarget⟩
    · obtain ⟨hstart, hstop, hhandler⟩ :=
        SiteAnalysis.not_marked_of_isMovable h.analysis hproper hmovable (by omega) hcode hr
      exact hid.elim hstart fun hid => hid.elim hstop hhandler
    · have hremovable : a.isRemovable code p 2 SiteAnalysis.invokeArity = true := by
        simp only [SiteAnalysis.isMovable, Bool.and_eq_true] at hmovable
        exact hmovable.1.1
      rcases SiteAnalysis.start_or_contains_of_jump h.analysis hproper hremovable hq (by omega) hcode htarget with
        rfl | hjumps
      · have hreal := SiteAnalysis.isReal_start h.analysis hproper harray
        rw [InsnList.insnAt, hlabel] at hreal
        cases hreal
      · refine absurd ((h.cuts_iff hdecides).mpr (.inl ((h.moved _).mpr ⟨d.edit, he, ?_⟩)))
          (by rw [hstays]; exact Bool.false_ne_true)
        rw [SiteEdit.movedIds, hmove, Option.map_some, Option.getD_some]
        exact List.mem_map_of_mem (Span.mem_positions.mpr (SiteAnalysis.contains_iff.mp hjumps))

/-- At a replaced call the analysis knows the stack. -/
theorem exists_before {p : Nat} {frame : Frame ConstantValue}
    (hframe : a.constants.getD p none = some frame) : ∃ before, a.sources.frameAt p = some before := by
  obtain ⟨hflow, hconstants⟩ := SiteAnalysis.flow_of_run h.analysis
  obtain ⟨hframes, hflow', _⟩ := SourceAnalysis.run_eq_ok (SiteAnalysis.sources_of_run h.analysis).1
  have hreaches := (Frame.isSome_iff_reaches hconstants hflow p).mp (by rw [hframe]; rfl)
  exact Option.isSome_iff_exists.mp ((Frame.isSome_iff_reaches hframes hflow p).mpr hreaches)

end Replacement

end DirectCall
