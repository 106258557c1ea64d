import DirectCall.Proofs.Frame.Kept
import DirectCall.Proofs.Sources.Realised
import Mathlib.Data.List.TakeWhile

/-!
# Instructions that work on kept values

An instruction that works on kept values alone, and behind which they are kept wherever control goes on, takes its
own place in a body from which other instructions are cut (`isUnit_stays`). Nothing at all takes the place of an
instruction that is cut, if as much is kept ahead of the next one (`isUnit_skipped`).
-/

namespace DirectCall

open SourceAnalysis (domainOf)
open SourceValue

namespace Frame

variable {V : Type} [DecidableEq V] {d : Domain V}

/-! ## What is kept on the stack -/

/-- Widths of the kept values of a stack. -/
def keptWidths (kept : SourceValue → Bool) (stack : List SourceValue) : List Nat := (stack.filter kept).map (·.size)

variable {size : Nat} {id : NodeId} {insn : Insn} {kept : SourceValue → Bool} {count : Nat}
  {known : Array SourceValue} {f : Frame V}

/-- An instruction that can do with the top of the stack does the same to a frame that keeps it. -/
theorem Keeps.execute (hd : d.Measured) (hsizes : ∀ v : V, d.size v = 1 ∨ d.size v = 2)
    {top : List SourceValue} {base : List Nat} (h : Keeps d kept count known (top.map (·.size) ++ base) f)
    {left : Frame SourceValue} (hleft : Frame.execute (domain size) id insn ⟨known, top⟩ = .ok left)
    (hread : ∀ var, insn.readSlot? = some var → ∀ v, known[var]? = some v → kept v = true) :
    ∃ after, f.execute d id insn = .ok after ∧
      Keeps d kept count left.locals (left.stack.map (·.size) ++ base) after := by
  obtain ⟨after, hafter, hstack, hcount, hlocals⟩ := h.locals.execute hd hsizes hleft h.stack hread
  exact ⟨after, hafter, hstack, hcount.trans h.count, hlocals⟩

/-- An instruction whose values are kept, and that works on kept values alone, does the same to what is kept. -/
theorem Keeps.execute_kept (hd : d.Measured) (hsizes : ∀ v : V, d.size v = 1 ∨ d.size v = 2)
    (hid : ∀ v : SourceValue, v.producers = [id] → kept v = true) {before handed : Frame SourceValue}
    (h : Keeps d kept count before.locals (keptWidths kept before.stack) f)
    (htakes : ∃ left, Frame.execute (domain size) id insn ⟨before.locals, before.stack.takeWhile kept⟩ = .ok left)
    (hread : ∀ var, insn.readSlot? = some var → ∀ v, before.locals[var]? = some v → kept v = true)
    (hhanded : before.execute (domain size) id insn = .ok handed) :
    ∃ after, f.execute d id insn = .ok after ∧
      Keeps d kept count handed.locals (keptWidths kept handed.stack) after := by
  obtain ⟨left, hleft⟩ := htakes
  have hstack : before.stack = before.stack.takeWhile kept ++ before.stack.dropWhile kept :=
    List.takeWhile_append_dropWhile.symm
  have hall : before.execute (domain size) id insn =
      .ok ⟨left.locals, left.stack ++ before.stack.dropWhile kept⟩ := by
    have habove := execute_above hleft (before.stack.dropWhile kept)
    rwa [← hstack] at habove
  obtain rfl := Except.ok.inj (hhanded.symm.trans hall)
  have htop : (before.stack.takeWhile kept).filter kept = before.stack.takeWhile kept :=
    List.filter_eq_self.mpr fun v hv => List.mem_takeWhile_imp hv
  -- What the instruction leaves above the rest is kept: it was there, or the instruction made it.
  have hkept : left.stack.filter kept = left.stack := by
    refine List.filter_eq_self.mpr fun v hv => ?_
    rcases execute_stack hleft hv with hv | hv
    · exact List.mem_takeWhile_imp hv
    · exact hid v hv
  rw [keptWidths, hstack, List.filter_append, htop, List.map_append] at h
  rw [keptWidths, List.filter_append, hkept, List.map_append]
  exact h.execute hd hsizes hleft hread

end Frame

namespace SourceAnalysis

open Frame (Keeps keptWidths)

variable {V : Type} {d : Domain V} {m : MethodSig} {body : Body} {a : SourceAnalysis} {kept : SourceValue → Bool}
  {count q : Nat}

/-- The frame has what is kept of the frame of the analysis. -/
def Known (a : SourceAnalysis) (d : Domain V) (kept : SourceValue → Bool) (count q : Nat) (f : Frame V) : Prop :=
  ∃ before, a.frameAt q = some before ∧ Keeps d kept count before.locals (keptWidths kept before.stack) f

/-- The instruction works on kept values alone. -/
def TakesKept (a : SourceAnalysis) (size : Nat) (kept : SourceValue → Bool) (q : Nat) : Prop :=
  ∀ before, a.frameAt q = some before →
    (∃ left, Frame.execute (domain size) (a.flow.idAt q) (a.flow.insnAt q)
      ⟨before.locals, before.stack.takeWhile kept⟩ = .ok left) ∧
      ∀ var, (a.flow.insnAt q).readSlot? = some var → ∀ v, before.locals[var]? = some v → kept v = true

/-- A value on the stack that is kept behind the instruction is kept wherever control goes on. -/
def HandsOnKept (a : SourceAnalysis) (size : Nat) (kept : SourceValue → Bool) (q : Nat) : Prop :=
  ∀ before move handed next, a.frameAt q = some before → a.flow.Allows q move →
    before.pass (domain size) a.flow q move = .ok handed → a.frameAt move.target = some next →
      List.Forall₂ (fun v w => kept v = true → kept w = true) handed.stack next.stack

/-- As much is kept ahead of the next position. -/
def SkipsKept (a : SourceAnalysis) (kept : SourceValue → Bool) (q : Nat) : Prop :=
  ∀ before, a.frameAt q = some before → ∃ next, a.frameAt (q + 1) = some next ∧
    keptWidths kept next.stack = keptWidths kept before.stack ∧
      ∀ (var : Nat) v', next.locals[var]? = some v' → kept v' = true →
        ∃ v, before.locals[var]? = some v ∧ kept v = true ∧ v.size = v'.size

theorem locals_size (h : run m body = .ok a) {p q : Nat} {f g : Frame SourceValue} (hf : a.frameAt p = some f)
    (hg : a.frameAt q = some g) : f.locals.size = g.locals.size := by
  obtain ⟨hframes, _, _⟩ := run_eq_ok h
  obtain ⟨_, entry, _, hentry, _⟩ := Frame.analyze_closed (joinBounds _) hframes
  exact (Frame.locals_size_of_analyze hframes hentry hf).trans (Frame.locals_size_of_analyze hframes hentry hg).symm

theorem Known.skip (h : run m body = .ok a) (hskips : a.SkipsKept kept q) {f : Frame V}
    (hf : a.Known d kept count q f) : a.Known d kept count (q + 1) f := by
  obtain ⟨before, hbefore, hkeeps⟩ := hf
  obtain ⟨next, hnext, hstack, hlocals⟩ := hskips before hbefore
  exact ⟨next, hnext, by rw [hstack]; exact hkeeps.stack, hkeeps.count,
    hkeeps.locals.mono (locals_size h hnext hbefore) hlocals⟩

/-- Wherever control goes on, the analysis knows the values that are handed on. -/
theorem exists_next (h : run m body = .ok a) (hmeet : a.WidthsMeet m body) {before : Frame SourceValue}
    (hbefore : a.frameAt q = some before) {move : Move} (hmove : a.flow.Allows q move) :
    ∃ handed next, before.pass (domainOf body) a.flow q move = .ok handed ∧ a.frameAt move.target = some next ∧
      next.Rel Agrees handed := by
  obtain ⟨hframes, hflow, _⟩ := run_eq_ok h
  obtain ⟨flow, _, hflow', _, hclosed⟩ := Frame.analyze_closed (joinBounds _) hframes
  obtain rfl := Except.ok.inj (hflow.symm.trans hflow')
  obtain ⟨handed, hpass, next, hnext, habsorbs⟩ := (hclosed.closedAt q before hbefore).absorbed move hmove
  exact ⟨handed, next, hpass, hnext, (hmeet.moves q move before handed next hbefore hmove hpass hnext).and habsorbs⟩

/-- A value is kept if one is that may stand for more. -/
def Antitone (kept : SourceValue → Bool) : Prop := ∀ v w : SourceValue, v.Covers w → kept v = true → kept w = true

theorem keptWidths_of_agrees (hanti : Antitone kept) {next handed : List SourceValue}
    (hagrees : List.Forall₂ Agrees next handed)
    (hkept : List.Forall₂ (fun v w => kept v = true → kept w = true) handed next) :
    keptWidths kept next = keptWidths kept handed := by
  induction hagrees with
  | nil => rfl
  | @cons w v next handed hfirst _ ih =>
    obtain ⟨hfirst', hrest'⟩ := List.forall₂_cons.mp hkept
    have hsame : kept w = kept v := Bool.eq_iff_iff.mpr ⟨hanti w v hfirst.2, hfirst'⟩
    have hrest := ih hrest'
    unfold keptWidths at hrest ⊢
    rw [List.filter_cons, List.filter_cons, hsame]
    split_ifs
    · rw [List.map_cons, List.map_cons, hrest, hfirst.1]
    · exact hrest

theorem kept_local_of_agrees (hanti : Antitone kept) {next handed : Frame SourceValue}
    (hagrees : next.Rel Agrees handed) (var : Nat) (v' : SourceValue) (hv' : next.locals[var]? = some v')
    (hkept : kept v' = true) : ∃ v, handed.locals[var]? = some v ∧ kept v = true ∧ v.size = v'.size := by
  obtain ⟨v, hv, hsize, hcovers⟩ := Frame.Rel.getLocal hagrees hv'
  exact ⟨v, hv, hanti v' v hcovers hkept, hsize.symm⟩

/-- What is handed on is known where control goes on. -/
theorem Known.of_handed (h : run m body = .ok a) (hmeet : a.WidthsMeet m body) (hanti : Antitone kept)
    {before : Frame SourceValue} (hbefore : a.frameAt q = some before) {move : Move} (hmove : a.flow.Allows q move)
    (hhands : a.HandsOnKept body.insns.nodes.size kept q) {handed : Frame SourceValue}
    (hpass : before.pass (domainOf body) a.flow q move = .ok handed) {f : Frame V}
    (hf : Keeps d kept count handed.locals (keptWidths kept handed.stack) f) :
    a.Known d kept count move.target f := by
  obtain ⟨handed', next, hpass', hnext, hagrees⟩ := exists_next h hmeet hbefore hmove
  obtain rfl := Except.ok.inj (hpass.symm.trans hpass')
  have hstack := keptWidths_of_agrees hanti hagrees.stack (hhands before move handed next hbefore hmove hpass hnext)
  exact ⟨next, hnext, by rw [hstack]; exact hf.stack, hf.count,
    hf.locals.mono hagrees.locals_size (kept_local_of_agrees hanti hagrees)⟩

/-! ## Where control goes on -/

/-- Control goes on to the next position. -/
theorem allows_next (h : run m body = .ok a) {before : Frame SourceValue} (hbefore : a.frameAt q = some before)
    (hends : (a.flow.insnAt q).endsFlow = false) : a.flow.Allows q (.next (q + 1)) := by
  obtain ⟨hframes, hflow, _⟩ := run_eq_ok h
  obtain ⟨flow, _, hflow', _, hclosed⟩ := Frame.analyze_closed (joinBounds _) hframes
  obtain rfl := Except.ok.inj (hflow.symm.trans hflow')
  obtain ⟨targets, htargets⟩ := (hclosed.closedAt q before hbefore).continues
  refine ⟨targets, htargets, (Flow.mem_successors_iff htargets).mpr (.inr ⟨hends, ?_, rfl⟩)⟩
  obtain ⟨jumps, _, htargets⟩ := bind_eq_ok.mp htargets
  rw [hends, if_neg Bool.false_ne_true] at htargets
  split_ifs at htargets with hlt
  exact hlt

/-- Control may go on to each target. -/
theorem allows_target (h : run m body = .ok a) (hproper : body.insns.Proper) {before : Frame SourceValue}
    (hbefore : a.frameAt q = some before) {target : NodeId} (htarget : target ∈ (a.flow.insnAt q).targets) :
    target ∈ body.insns.order ∧ a.flow.Allows q (.next (body.insns.rank target)) := by
  obtain ⟨hframes, hflow, _⟩ := run_eq_ok h
  obtain ⟨flow, _, hflow', _, hclosed⟩ := Frame.analyze_closed (joinBounds _) hframes
  obtain rfl := Except.ok.inj (hflow.symm.trans hflow')
  obtain ⟨targets, htargets⟩ := (hclosed.closedAt q before hbefore).continues
  obtain ⟨jumps, hjumps, _⟩ := bind_eq_ok.mp htargets
  obtain ⟨t, ht, hfind⟩ := exists_of_forall₂ (mapM_eq_ok.mp hjumps) htarget
  obtain ⟨hmem, rfl⟩ := (Flow.find_eq_ok hproper hflow).mp hfind
  exact ⟨hmem, targets, htargets, (Flow.mem_successors_iff htargets).mpr (.inl ⟨jumps, hjumps, ht⟩)⟩

/-- A real instruction may raise to each handler that covers it. -/
theorem allows_raise (h : run m body = .ok a) (hproper : body.insns.Proper)
    (hreal : (a.flow.insnAt q).isReal = true) {r : Region} (hr : r ∈ body.regions)
    (hstart : body.insns.rank r.start ≤ q) (hstop : q < body.insns.rank r.stop) :
    a.flow.Allows q (.raise ⟨body.insns.rank r.handler, r.catchType⟩) := by
  obtain ⟨_, hflow, _⟩ := run_eq_ok h
  obtain ⟨hstart', hstop', hhandler'⟩ := (Flow.exists_ofBody_iff hproper).mp ⟨_, hflow⟩ r hr
  exact ⟨hreal, (Flow.mem_handlersAt_iff hflow).mpr ⟨r, hr, _, _, _, hproper.find_eq_ok.mpr ⟨hstart', rfl⟩,
    hproper.find_eq_ok.mpr ⟨hstop', rfl⟩, hproper.find_eq_ok.mpr ⟨hhandler', rfl⟩, hstart, hstop, rfl⟩⟩

end SourceAnalysis

namespace SourceValue

/-- No producer of the value is cut. -/
def uncut (cut : NodeId → Bool) (v : SourceValue) : Bool := v.producers.all fun id => !cut id

variable {cut : NodeId → Bool} {v : SourceValue}

theorem uncut_of_singleton {id : NodeId} (hid : cut id = false) (h : v.producers = [id]) : v.uncut cut = true := by
  rw [uncut, h]
  simp [hid]

theorem antitone_uncut (cut : NodeId → Bool) : SourceAnalysis.Antitone (uncut cut) := by
  intro v w hcovers hkept
  simp only [uncut, List.all_eq_true] at hkept ⊢
  exact fun id hid => hkept id (hcovers id hid)

end SourceValue

namespace SourceAnalysis

open Frame (Keeps keptWidths IsUnit Steady Lands)

variable {V : Type} [DecidableEq V] {d : Domain V} {m : MethodSig} {body : Body} {a : SourceAnalysis}
  {cut : NodeId → Bool} {count q : Nat} {list : InsnList} {jumps : NodeId → Frame V → Prop}

omit [DecidableEq V] in
theorem steady_of_frame (hd : d.Measured) {P : Frame V → Prop} {known : Array SourceValue} {stack : List Nat}
    (hP : ∀ f, P f ↔ Keeps d (uncut cut) count known stack f) : Steady d P := by
  intro f g hf hg
  obtain ⟨hheights, hjoins⟩ := Keeps.steady hd f g ((hP f).mp hf) ((hP g).mp hg)
  exact ⟨hheights, fun joined hjoined => (hP joined).mpr (hjoins joined hjoined)⟩

omit [DecidableEq V] in
theorem steady_known (hd : d.Measured) : Steady d (a.Known d (uncut cut) count q) := by
  cases hframe : a.frameAt q with
  | none =>
    rintro f g ⟨before, hbefore, _⟩
    rw [hframe] at hbefore
    cases hbefore
  | some before =>
    have hsame : ∀ f, a.Known d (uncut cut) count q f ↔
        Keeps d (uncut cut) count before.locals (keptWidths (uncut cut) before.stack) f := by
      refine fun f => ⟨?_, fun hf => ⟨before, hframe, hf⟩⟩
      rintro ⟨before', hbefore, hf⟩
      obtain rfl := Option.some.inj (hframe.symm.trans hbefore)
      exact hf
    exact steady_of_frame hd hsame

section Run

variable (hd : d.Measured) (h : run m body = .ok a) (hproper : body.insns.Proper) (hmeet : a.WidthsMeet m body)

include hd h hproper hmeet

omit [DecidableEq V] in
/-- What is known ahead of a real instruction is known of the locals where its handlers start. -/
theorem raises_of_keeps (hreal : (a.flow.insnAt q).isReal = true)
    (hhands : a.HandsOnKept body.insns.nodes.size (uncut cut) q) {before : Frame SourceValue}
    (hbefore : a.frameAt q = some before) {stack : List Nat} {f : Frame V}
    (hf : Keeps d (uncut cut) count before.locals stack f) :
    Frame.Raises d body (a.Known d (uncut cut) count) q f := by
  intro r hr hstart hstop
  refine Known.of_handed h hmeet (antitone_uncut cut) hbefore (allows_raise h hproper hreal hr hstart hstop) hhands rfl
    ⟨?_, hf.count, hf.locals⟩
  show [d.size (d.exception r.catchType)] = [1]
  rw [hd.exception]

/-- An instruction that stays and works on kept values alone is a unit. -/
theorem isUnit_stays (hsizes : ∀ v : V, d.size v = 1 ∨ d.size v = 2) (hcut : cut (a.flow.idAt q) = false)
    (hget : list.get (a.flow.idAt q) = a.flow.insnAt q) (htakes : a.TakesKept body.insns.nodes.size (uncut cut) q)
    (hhands : a.HandsOnKept body.insns.nodes.size (uncut cut) q)
    (hjumps : ∀ target ∈ (a.flow.insnAt q).targets, target ∈ body.insns.order →
      ∀ f, a.Known d (uncut cut) count (body.insns.rank target) f → jumps target f) :
    IsUnit d list jumps (Frame.Raises d body (a.Known d (uncut cut) count) q) (a.Known d (uncut cut) count q)
      (a.Known d (uncut cut) count (q + 1)) [a.flow.idAt q] [(a.flow.idAt q, a.Known d (uncut cut) count q)] where
  nodes := rfl
  enters _ hf := hf
  passes := by
    refine ⟨⟨steady_known hd, ?goesOn, ?raises⟩, trivial⟩
    case goesOn =>
      rintro f ⟨before, hbefore, hf⟩
      dsimp only
      rw [hget]
      obtain ⟨hleft, hread⟩ := htakes before hbefore
      obtain ⟨handed, hpass⟩ : ∃ handed, before.execute (domainOf body) (a.flow.idAt q) (a.flow.insnAt q) =
          .ok handed := by
        obtain ⟨left, hleft⟩ := hleft
        have habove := Frame.execute_above hleft (before.stack.dropWhile (uncut cut))
        rw [List.takeWhile_append_dropWhile] at habove
        exact ⟨_, habove⟩
      obtain ⟨after, hafter, hkeeps⟩ :=
        hf.execute_kept hd hsizes (fun v hv => uncut_of_singleton hcut hv) hleft hread hpass
      refine ⟨after, hafter, fun target htarget => .inr ?_, fun hends => ?_⟩
      · obtain ⟨hmem, hmove⟩ := allows_target h hproper hbefore htarget
        exact hjumps target htarget hmem after
          (Known.of_handed h hmeet (antitone_uncut cut) hbefore hmove hhands hpass hkeeps)
      · exact Known.of_handed h hmeet (antitone_uncut cut) hbefore (allows_next h hbefore hends) hhands hpass hkeeps
    case raises =>
      rintro hreal f ⟨before, hbefore, hf⟩
      dsimp only at hreal
      rw [hget] at hreal
      exact raises_of_keeps hd h hproper hmeet hreal hhands hbefore hf

omit hd hproper hmeet in
/-- So is nothing at all in the place of what is cut. -/
theorem isUnit_skipped (hskips : a.SkipsKept (uncut cut) q) {raises : Frame V → Prop} :
    IsUnit d list jumps raises (a.Known d (uncut cut) count q) (a.Known d (uncut cut) count (q + 1)) [] [] where
  nodes := rfl
  enters _ hf := hf.skip h hskips
  passes := trivial

end Run

end SourceAnalysis

namespace SourceAnalysis

variable {m : MethodSig} {body : Body} {a : SourceAnalysis}

/-- In no frame of the analysis the last local is wide. -/
theorem lastNarrow (h : run m body = .ok a) {p : Nat} {frame : Frame SourceValue} (hframe : a.frameAt p = some frame) :
    Frame.LastNarrow (domainOf body) frame.locals := by
  have hd := SourceValue.measured body.insns.nodes.size
  obtain ⟨hframes, hflow, _⟩ := run_eq_ok h
  obtain ⟨_, entry, _, hentry, _⟩ := Frame.analyze_closed (SourceValue.joinBounds _) hframes
  refine (Frame.analyze_invariant hframes hflow hentry
    (Q := fun _ f => f.locals.size = entry.locals.size ∧ Frame.LastNarrow (domainOf body) f.locals)
    (fun p f g joined hf hg hjoin => ?join) ⟨rfl, Frame.lastNarrow_entry hd hentry⟩
    (fun p before move g hbefore _ hpass => ?move) p frame hframe).2
  case join =>
    unfold Frame.join at hjoin
    split_ifs at hjoin
    obtain rfl := Except.ok.inj hjoin
    have hsize : (Array.zipWith (domainOf body).join f.locals g.locals).size = f.locals.size := by
      rw [Array.size_zipWith, hf.1, hg.1, Nat.min_self]
    refine ⟨hsize.trans hf.1, fun u hu => ?_⟩
    -- A join has the width of the first value.
    obtain ⟨v, w, hv, _, rfl⟩ := Array.getElem?_zipWith_eq_some.mp hu
    exact hf.2 v (hsize ▸ hv)
  case move =>
    cases move with
    | next q =>
      refine ⟨(Frame.execute_locals_size hpass).trans hbefore.1, ?_⟩
      rcases SourceValue.execute_eq_ok.mp hpass with ⟨_, rfl⟩ | ⟨code, operands, _, hstep⟩
      · exact hbefore.2
      · rcases Frame.step_locals hstep with hsame | ⟨left, var, v, hleft, hset⟩
        · exact hsame ▸ hbefore.2
        · exact Frame.LastNarrow.setLocal hd (hleft ▸ hbefore.2) hset
    | raise edge =>
      obtain rfl := Except.ok.inj hpass
      exact hbefore

end SourceAnalysis

end DirectCall
