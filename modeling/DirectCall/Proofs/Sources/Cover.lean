import DirectCall.Proofs.Frame.Simulate
import DirectCall.Proofs.Sources.Order
import DirectCall.Sources

/-!
# Producers and paths

The frames of the source analysis are compared with what each path finds on its own. A value keeps the
width that it had on the first path to arrive, and stores, increments, shuffles and `pop2` go by widths.
So producers may be missed behind a place where values of different widths meet (`not_forall_missesNone`),
and nowhere else: `missesNone_iff` says exactly when, and none are missed if widths agree wherever paths
meet (`missesNone_of_widthsMeet`).
-/

namespace DirectCall

namespace SourceValue

/-- The first value misses no producer of the second one. -/
def Covers (x y : SourceValue) : Prop := ∀ id ∈ y.producers, id ∈ x.producers

/-- The first value misses no producer of the second one, and takes as many slots. -/
def Agrees (x y : SourceValue) : Prop := x.size = y.size ∧ x.Covers y

variable {size : Nat}

theorem Covers.refl (x : SourceValue) : x.Covers x := fun _ hid => hid

theorem Covers.trans {x y z : SourceValue} (h : x.Covers y) (h' : y.Covers z) : x.Covers z :=
  fun id hid => h id (h' id hid)

theorem Agrees.refl (x : SourceValue) : x.Agrees x := ⟨rfl, .refl x⟩

theorem Agrees.trans {x y z : SourceValue} (h : x.Agrees y) (h' : y.Agrees z) : x.Agrees z :=
  ⟨h.1.trans h'.1, h.2.trans h'.2⟩

theorem joinBounds (size : Nat) : (domain size).JoinBounds Covers where
  refl := Covers.refl
  trans _ _ _ := Covers.trans
  left _ _ _ hid := mem_union.mpr (.inl hid)
  right _ _ _ hid := mem_union.mpr (.inr hid)

/-- What an instruction makes of values depends on their widths alone: the operations respect a relation
that holds of each value without producers, or with one, and itself. -/
theorem sim_of {R : SourceValue → SourceValue → Prop} (hnone : ∀ width, R ⟨width, []⟩ ⟨width, []⟩)
    (hone : ∀ width id, R ⟨width, [id]⟩ ⟨width, [id]⟩)
    (hcopy : ∀ (id : NodeId) v w, R v w → R ⟨v.size, [id]⟩ ⟨w.size, [id]⟩) :
    (domain size).Sim (domain size) R where
  unset := hnone _
  exception _ := hnone _
  produce _ _ := hone _ _
  copy id _ := hcopy id
  copySize _ _ _ _ h := h
  unary _ _ _ _ _ := hone _ _
  increment _ _ _ _ _ _ := rfl
  binary _ _ _ _ _ _ _ _ := hone _ _
  nary _ _ _ _ _ := hone _ _

theorem sim_covers (size : Nat) : (domain size).Sim (domain size) Covers :=
  sim_of (fun _ => .refl _) (fun _ _ => .refl _) fun _ _ _ _ _ hid => hid

theorem sim_agrees (size : Nat) : (domain size).Sim (domain size) Agrees :=
  sim_of (fun _ => .refl _) (fun _ _ => .refl _) fun _ _ _ h => ⟨h.1, fun _ hid => hid⟩

/-- The domain refines nothing. -/
theorem execute_eq_ok {id : NodeId} {insn : Insn} {f g : Frame SourceValue} :
    f.execute (domain size) id insn = .ok g ↔
      (insn.opcode? = none ∧ g = f) ∨
        ∃ code operands, insn.opcode? = some code ∧ f.step (domain size) id insn code = .ok (operands, g) := by
  unfold Frame.execute
  cases hcode : insn.opcode? with
  | none => simp [eq_comm]
  | some code =>
    simp only [reduceCtorEq, false_and, false_or, Option.some.injEq, ↓existsAndEq, true_and]
    rw [bind_eq_ok]
    constructor
    · rintro ⟨⟨operands, left⟩, hstep, hg⟩
      obtain rfl := Except.ok.inj hg
      exact ⟨operands, hstep⟩
    · rintro ⟨operands, hstep⟩
      exact ⟨(operands, g), hstep, rfl⟩

/-- If the two frames agree on the widths that an instruction goes by, it takes related frames to related
frames. The operations need to respect the relation for that instruction only. -/
theorem execute_simAt {R : SourceValue → SourceValue → Prop} {id : NodeId} {insn : Insn}
    (hsim : insn.opcode?.isSome = true → (domain size).SimAt (domain size) R id insn)
    {known held after : Frame SourceValue} (h : known.Rel R held)
    (hwidths : ∀ code, insn.opcode? = some code → Opcode.readsWidths code = true →
      Frame.SameWidths (domain size) (domain size) known held)
    (hafter : known.execute (domain size) id insn = .ok after) :
    ∃ left, held.execute (domain size) id insn = .ok left ∧ after.Rel R left := by
  rcases execute_eq_ok.mp hafter with ⟨hcode, rfl⟩ | ⟨code, operands, hcode, hstep⟩
  · exact ⟨held, execute_eq_ok.mpr (.inl ⟨hcode, rfl⟩), h⟩
  · obtain ⟨⟨operands', left⟩, hstep', _, hleft⟩ :=
      Frame.step_simAt (hsim (hcode ▸ rfl)) h (hwidths code hcode) hstep
    exact ⟨left, execute_eq_ok.mpr (.inr ⟨code, operands', hcode, hstep'⟩), hleft⟩

theorem execute_sim {R : SourceValue → SourceValue → Prop} (hsim : (domain size).Sim (domain size) R)
    {id : NodeId} {insn : Insn} {known held after : Frame SourceValue} (h : known.Rel R held)
    (hwidths : ∀ code, insn.opcode? = some code → Opcode.readsWidths code = true →
      Frame.SameWidths (domain size) (domain size) known held)
    (hafter : known.execute (domain size) id insn = .ok after) :
    ∃ left, held.execute (domain size) id insn = .ok left ∧ after.Rel R left :=
  execute_simAt (fun _ => hsim.at id insn) h hwidths hafter

theorem covers_rel_trans {f g h : Frame SourceValue} (hfg : f.Rel Covers g) (hgh : g.Rel Covers h) :
    f.Rel Covers h :=
  hfg.trans (fun _ _ _ hxy hyz => hxy.trans hyz) hgh

theorem sameWidths_of_agrees {f g : Frame SourceValue} (h : f.Rel Agrees g) :
    Frame.SameWidths (domain size) (domain size) f g :=
  h.imp fun _ _ h => h.1

/-- What a move to a successor needs in order to miss no producer: an instruction that goes by widths
either sees the same ones in both frames, or does no harm on the path. `known` and `held` are the frames
of the analysis and of the path ahead of the instruction, `next` is the frame of the analysis behind it. -/
def KeepsWidths (size : Nat) (id : NodeId) (insn : Insn) (known held next : Frame SourceValue) : Prop :=
  ∀ code, insn.opcode? = some code → Opcode.readsWidths code = true →
    ¬ Frame.SameWidths (domain size) (domain size) known held →
      ∃ left, held.execute (domain size) id insn = .ok left ∧ next.Rel Covers left

theorem KeepsWidths.covers {id : NodeId} {insn : Insn} {known held next after : Frame SourceValue}
    (h : KeepsWidths size id insn known held next) (hrel : known.Rel Covers held)
    (hafter : known.execute (domain size) id insn = .ok after) (hnext : next.Rel Covers after) :
    ∃ left, held.execute (domain size) id insn = .ok left ∧ next.Rel Covers left := by
  by_cases hwidths : ∀ code, insn.opcode? = some code → Opcode.readsWidths code = true →
      Frame.SameWidths (domain size) (domain size) known held
  · obtain ⟨left, hexecute, hleft⟩ := execute_sim (sim_covers size) hrel hwidths hafter
    exact ⟨left, hexecute, covers_rel_trans hnext hleft⟩
  · push Not at hwidths
    obtain ⟨code, hcode, hreads, hdiffer⟩ := hwidths
    exact h code hcode hreads hdiffer

/-! ## What is on the stack behind an instruction -/

section Stack

variable {id : NodeId} {insn : Insn} {f g : Frame SourceValue} {v : SourceValue}

/-- What a shuffle leaves on the stack was there, or the shuffle copied it. -/
theorem shuffle_stack {kind : Shuffle} {stack moved result : List SourceValue}
    (h : kind.run (domain size).size ((domain size).copy id insn) stack = some (moved, result))
    (hv : v ∈ result) : v ∈ stack ∨ v.producers = [id] := by
  have hsame : List.Forall₂ (fun v w => (v = w ∧ (v ∈ stack ∨ v.producers = [id])) ∧ v.size = w.size)
      stack stack :=
    List.forall₂_same.mpr fun v hv => ⟨⟨rfl, .inl hv⟩, rfl⟩
  obtain ⟨_, _, _, hresult⟩ :=
    Frame.shuffle_sim (fun v w h => ⟨congrArg ((domain size).copy id insn) h.1, .inr rfl⟩) kind hsame h
  obtain ⟨_, _, _, hfrom⟩ := exists_of_forall₂ hresult hv
  exact hfrom

theorem pushIf_stack {pushes : Bool} {w : SourceValue} (hv : v ∈ (f.pushIf pushes w).stack) :
    v ∈ f.stack ∨ v = w := by
  cases pushes with
  | false => exact .inl hv
  | true => exact (List.mem_cons.mp hv).symm

/-- A value on the stack behind an instruction was there ahead of it, or the instruction pushed it. -/
theorem execute_stack (h : f.execute (domain size) id insn = .ok g) (hv : v ∈ g.stack) :
    v ∈ f.stack ∨ v.producers = [id] := by
  rcases execute_eq_ok.mp h with ⟨_, rfl⟩ | ⟨code, operands, _, hstep⟩
  · exact .inl hv
  unfold Frame.step at hstep
  cases heffect : Opcode.effect code with
  | nothing =>
    rw [heffect] at hstep
    obtain ⟨_, rfl⟩ := Prod.mk.inj (Except.ok.inj hstep)
    exact .inl hv
  | produce =>
    rw [heffect] at hstep
    obtain ⟨_, rfl⟩ := Prod.mk.inj (Except.ok.inj hstep)
    exact (List.mem_cons.mp hv).elim (fun heq => .inr (heq ▸ rfl)) .inl
  | load =>
    rw [heffect] at hstep
    obtain ⟨var, _, hstep⟩ := bind_eq_ok.mp hstep
    obtain ⟨w, _, hstep⟩ := bind_eq_ok.mp hstep
    obtain ⟨_, rfl⟩ := Prod.mk.inj (Except.ok.inj hstep)
    exact (List.mem_cons.mp hv).elim (fun heq => .inr (heq ▸ rfl)) .inl
  | store =>
    rw [heffect] at hstep
    obtain ⟨var, top, rest, left, _, hstack, hset, heq⟩ := Frame.stepStore_eq_ok.mp hstep
    obtain ⟨_, rfl⟩ := Prod.mk.inj heq
    rw [Frame.setLocal_stack hset] at hv
    exact .inl (hstack ▸ List.mem_cons_of_mem _ hv)
  | pop | storeElement =>
    rw [heffect] at hstep
    obtain ⟨_, _, rfl⟩ := Frame.pop_eq_ok.mp hstep
    exact .inl (List.mem_of_mem_drop hv)
  | pop2 =>
    rw [heffect] at hstep
    rcases Frame.stepPop2_eq_ok.mp hstep with ⟨x, y, rest, hstack, _, heq⟩ | ⟨x, rest, hstack, _, heq⟩
    · obtain ⟨_, rfl⟩ := Prod.mk.inj heq
      exact .inl (hstack ▸ List.mem_cons_of_mem _ (List.mem_cons_of_mem _ hv))
    · obtain ⟨_, rfl⟩ := Prod.mk.inj heq
      exact .inl (hstack ▸ List.mem_cons_of_mem _ hv)
  | shuffle kind =>
    rw [heffect] at hstep
    obtain ⟨moved, stack, hrun, heq⟩ := Frame.stepShuffle_eq_ok.mp hstep
    obtain ⟨_, rfl⟩ := Prod.mk.inj heq
    exact shuffle_stack hrun hv
  | binary pushes =>
    rw [heffect] at hstep
    obtain ⟨x, y, rest, hstack, heq⟩ := Frame.stepBinary_eq_ok.mp hstep
    obtain ⟨_, rfl⟩ := Prod.mk.inj heq
    rcases pushIf_stack hv with hv | rfl
    · exact .inl (hstack ▸ List.mem_cons_of_mem _ (List.mem_cons_of_mem _ hv))
    · exact .inr rfl
  | unary pushes =>
    rw [heffect] at hstep
    obtain ⟨x, rest, hstack, heq⟩ := Frame.stepUnary_eq_ok.mp hstep
    obtain ⟨_, rfl⟩ := Prod.mk.inj heq
    rcases pushIf_stack hv with hv | rfl
    · exact .inl (hstack ▸ List.mem_cons_of_mem _ hv)
    · exact .inr rfl
  | increment =>
    rw [heffect] at hstep
    obtain ⟨var, delta, w, left, _, _, hset, heq⟩ := Frame.stepIncrement_eq_ok.mp hstep
    obtain ⟨_, rfl⟩ := Prod.mk.inj heq
    rw [Frame.setLocal_stack hset] at hv
    exact .inl hv
  | call =>
    rw [heffect] at hstep
    obtain ⟨shape, _, hstep⟩ := bind_eq_ok.mp hstep
    obtain ⟨_, heq⟩ := Frame.stepNary_eq_ok.mp hstep
    obtain ⟨_, rfl⟩ := Prod.mk.inj heq
    rcases pushIf_stack hv with hv | rfl
    · exact .inl (List.mem_of_mem_drop hv)
    · exact .inr rfl
  | newMultiArray =>
    simp only [heffect] at hstep
    split at hstep
    · obtain ⟨_, heq⟩ := Frame.stepNary_eq_ok.mp hstep
      obtain ⟨_, rfl⟩ := Prod.mk.inj heq
      rcases pushIf_stack hv with hv | rfl
      · exact .inl (List.mem_of_mem_drop hv)
      · exact .inr rfl
    · cases hstep
  | subroutine | unsupported =>
    rw [heffect] at hstep
    cases hstep

end Stack

end SourceValue

open SourceValue

namespace SourceAnalysis

variable {m : MethodSig} {body : Body} {a : SourceAnalysis}

/-- The domain in which a body is analysed. -/
abbrev domainOf (body : Body) : Domain SourceValue := domain body.insns.nodes.size

/-- What the analysis is made of. -/
theorem run_eq_ok (h : run m body = .ok a) :
    Frame.analyze (domainOf body) m body = .ok a.frames ∧ Flow.ofBody body = .ok a.flow ∧
      a.consumed = (Array.range a.flow.size).map fun position =>
        match a.frames.getD position none with
        | some frame => usedBy (a.flow.insnAt position) (a.flow.idAt position) frame
        | none => [] := by
  obtain ⟨frames, hframes, h⟩ := bind_eq_ok.mp h
  obtain ⟨flow, hflow, h⟩ := bind_eq_ok.mp h
  obtain ⟨conditionals, _, h⟩ := bind_eq_ok.mp h
  obtain rfl := Except.ok.inj h
  exact ⟨hframes, hflow, rfl⟩

/-- Whatever path leads to a position, the producers that it finds for the values there are known. -/
def MissesNone (a : SourceAnalysis) (m : MethodSig) (body : Body) : Prop :=
  ∀ entry path, Frame.entry (domainOf body) m body.maxLocals = .ok entry → a.flow.IsPath 0 path →
    ∃ known held, a.frameAt (Flow.endOf 0 path) = some known ∧
      entry.follow (domainOf body) a.flow 0 path = .ok held ∧ known.Rel Covers held

/-- Along every path that misses no producer so far, the next move keeps the widths that matter. -/
def KeepWidths (a : SourceAnalysis) (m : MethodSig) (body : Body) : Prop :=
  ∀ entry path target known held next, Frame.entry (domainOf body) m body.maxLocals = .ok entry →
    a.flow.IsPath 0 (path ++ [.next target]) → a.frameAt (Flow.endOf 0 path) = some known →
    entry.follow (domainOf body) a.flow 0 path = .ok held → known.Rel Covers held →
    a.frameAt target = some next →
      KeepsWidths body.insns.nodes.size (a.flow.idAt (Flow.endOf 0 path))
        (a.flow.insnAt (Flow.endOf 0 path)) known held next

/-- Values have the same widths on all the paths that meet at a position. -/
structure WidthsMeet (a : SourceAnalysis) (m : MethodSig) (body : Body) : Prop where
  entry : ∀ entry known, Frame.entry (domainOf body) m body.maxLocals = .ok entry →
    a.frameAt 0 = some known → Frame.SameWidths (domainOf body) (domainOf body) known entry
  moves : ∀ position move known handed next, a.frameAt position = some known →
    a.flow.Allows position move → known.pass (domainOf body) a.flow position move = .ok handed →
      a.frameAt move.target = some next →
        Frame.SameWidths (domainOf body) (domainOf body) next handed

theorem caught_rel {R : SourceValue → SourceValue → Prop} (hrefl : ∀ x, R x x)
    {known held : Frame SourceValue} (h : known.Rel R held) (catchType : Option String) :
    (known.caught (domainOf body) catchType).Rel R (held.caught (domainOf body) catchType) :=
  ⟨h.locals, .cons (hrefl _) .nil⟩

/-- No producer is missed exactly if the widths that matter are kept along every path. -/
theorem missesNone_iff (h : run m body = .ok a) : a.MissesNone m body ↔ a.KeepWidths m body := by
  obtain ⟨hframes, hflow, _⟩ := run_eq_ok h
  obtain ⟨flow, entry, hflow', hentry, hclosed⟩ := Frame.analyze_closed (joinBounds _) hframes
  obtain rfl := Except.ok.inj (hflow.symm.trans hflow')
  constructor
  · intro hnone entry' path target known held next hentry' hpath hknown hheld _ hnext code _ _ _
    obtain ⟨next', left, hnext', hleft, hcovers⟩ := hnone entry' _ hentry' hpath
    rw [Flow.endOf_append, Move.target, hnext, Option.some.injEq] at hnext'
    rw [Frame.follow_append_ok (domainOf body) a.flow hheld] at hleft
    exact ⟨left, hleft, hnext' ▸ hcovers⟩
  · intro hkeep entry' path hentry' hpath
    obtain rfl := Except.ok.inj (hentry.symm.trans hentry')
    -- The path grows at its end: what is known ahead of its last move is known behind it.
    induction path using List.reverseRecOn with
    | nil =>
      obtain ⟨known, hknown, hrel⟩ := hclosed.start
      exact ⟨known, entry, hknown, rfl, hrel⟩
    | append_singleton path move ih =>
      obtain ⟨hahead, hmove⟩ := (a.flow.isPath_append 0 path move).mp hpath
      obtain ⟨known, held, hknown, hheld, hrel⟩ := ih hahead
      obtain ⟨g, hpass, next, hnext, habsorbs⟩ :=
        (hclosed.closedAt _ known hknown).absorbed move hmove
      rw [Flow.endOf_append, Frame.follow_append_ok (domainOf body) a.flow hheld]
      cases move with
      | next target =>
        have hkept := hkeep entry path target known held next hentry hpath hknown hheld hrel hnext
        obtain ⟨left, hexecute, hcovers⟩ := hkept.covers hrel hpass habsorbs
        exact ⟨next, left, hnext, hexecute, hcovers⟩
      | raise edge =>
        obtain rfl := Except.ok.inj hpass
        exact ⟨next, _, hnext, rfl,
          covers_rel_trans habsorbs (caught_rel .refl hrel edge.catchType)⟩

/-- If widths agree wherever paths meet, the analysis knows the widths that each path finds, and misses no
producer. -/
theorem agrees_of_widthsMeet (h : run m body = .ok a) (hmeet : a.WidthsMeet m body)
    {entry : Frame SourceValue} (hentry : Frame.entry (domainOf body) m body.maxLocals = .ok entry)
    {path : List Move} (hpath : a.flow.IsPath 0 path) :
    ∃ known held, a.frameAt (Flow.endOf 0 path) = some known ∧
      entry.follow (domainOf body) a.flow 0 path = .ok held ∧ known.Rel Agrees held := by
  obtain ⟨hframes, hflow, _⟩ := run_eq_ok h
  obtain ⟨flow, entry', hflow', hentry', hclosed⟩ := Frame.analyze_closed (joinBounds _) hframes
  obtain rfl := Except.ok.inj (hflow.symm.trans hflow')
  obtain rfl := Except.ok.inj (hentry.symm.trans hentry')
  induction path using List.reverseRecOn with
  | nil =>
    obtain ⟨known, hknown, hrel⟩ := hclosed.start
    exact ⟨known, entry, hknown, rfl, (hmeet.entry entry known hentry hknown).and hrel⟩
  | append_singleton path move ih =>
    obtain ⟨hahead, hmove⟩ := (a.flow.isPath_append 0 path move).mp hpath
    obtain ⟨known, held, hknown, hheld, hrel⟩ := ih hahead
    obtain ⟨handed, hpass, next, hnext, habsorbs⟩ :=
      (hclosed.closedAt _ known hknown).absorbed move hmove
    have hnextRel : next.Rel Agrees handed :=
      Frame.Rel.and (hmeet.moves _ move known handed next hknown hmove hpass hnext) habsorbs
    rw [Flow.endOf_append, Frame.follow_append_ok (domainOf body) a.flow hheld]
    have hleft : ∃ left, held.pass (domainOf body) a.flow (Flow.endOf 0 path) move = .ok left ∧
        handed.Rel Agrees left := by
      cases move with
      | next target =>
        exact execute_sim (sim_agrees _) hrel (fun _ _ _ => sameWidths_of_agrees hrel) hpass
      | raise edge =>
        obtain rfl := Except.ok.inj hpass
        exact ⟨_, rfl, caught_rel .refl hrel edge.catchType⟩
    obtain ⟨left, hpass', hrel'⟩ := hleft
    exact ⟨next, left, hnext, hpass', hnextRel.trans (fun _ _ _ hxy hyz => hxy.trans hyz) hrel'⟩

/-- If widths agree wherever paths meet, no producer is missed. -/
theorem missesNone_of_widthsMeet (h : run m body = .ok a) (hmeet : a.WidthsMeet m body) :
    a.MissesNone m body := by
  intro entry path hentry hpath
  obtain ⟨known, held, hknown, hheld, hrel⟩ := agrees_of_widthsMeet h hmeet hentry hpath
  exact ⟨known, held, hknown, hheld, hrel.imp fun _ _ h => h.2⟩

/-! ## A narrow value in a wide local

Two paths meet. The first to arrive has a long in local 0, the other one an int, so the local counts as
wide. A store into local 1 is then taken to cut the long in half, and the int is lost with it. -/

/-- A static method without parameters. -/
def halvedSig : MethodSig := ⟨"a/A", "m", "()V", 0x0008⟩

def halvedBody : Body where
  insns := InsnList.ofInsns #[
    .op Opcode.iconst0, .jump Opcode.ifeq ⟨5⟩, .op 0x09, .var Opcode.lstore 0, .jump Opcode.goto ⟨8⟩,
    .label, .op Opcode.iconst0, .var Opcode.istore 0, .label, .op Opcode.iconst0, .var Opcode.istore 1,
    .op Opcode.returnVoid]
  regions := []
  locals := []
  maxStack := 2
  maxLocals := 2

/-- The path on which local 0 holds an int. -/
def halvedPath : List Move :=
  [.next 1, .next 5, .next 6, .next 7, .next 8, .next 9, .next 10, .next 11]

def halvedFlow : Flow := ⟨halvedBody.insns, halvedBody.insns.positions, []⟩

theorem halvedBody_misses :
    ∃ a, run halvedSig halvedBody = .ok a ∧ ¬ a.MissesNone halvedSig halvedBody := by
  have hknown : (run halvedSig halvedBody).toOption.map (fun a => a.frameAt 11) =
      some (some ⟨#[⟨1, []⟩, ⟨1, [⟨10⟩]⟩], []⟩) := by decide +kernel
  have hpath : halvedFlow.IsPath 0 halvedPath := by decide +kernel
  have hheld : (Frame.follow (domainOf halvedBody) halvedFlow 0 ⟨#[⟨1, []⟩, ⟨1, []⟩], []⟩
      halvedPath).toOption = some ⟨#[⟨1, [⟨7⟩]⟩, ⟨1, [⟨10⟩]⟩], []⟩ := by decide +kernel
  cases hrun : run halvedSig halvedBody with
  | error e => simp [hrun, Except.toOption] at hknown
  | ok a =>
    refine ⟨a, rfl, fun hnone => ?_⟩
    obtain ⟨_, hflow, _⟩ := run_eq_ok hrun
    have hsame : a.flow = halvedFlow := Except.ok.inj (hflow.symm.trans rfl)
    obtain ⟨known, held, hknown', hfollow, hrel⟩ :=
      hnone ⟨#[⟨1, []⟩, ⟨1, []⟩], []⟩ halvedPath rfl (hsame ▸ hpath)
    rw [hsame] at hfollow
    simp only [hrun, Except.toOption, Option.map_some, Option.some.injEq] at hknown
    simp only [hfollow, Except.toOption, Option.some.injEq] at hheld
    obtain rfl := Option.some.inj (hknown'.symm.trans hknown)
    subst hheld
    obtain _ | ⟨hcovers, _⟩ := hrel.locals
    exact List.not_mem_nil (hcovers ⟨7⟩ (by simp))

/-- The analysis alone does not find all producers. -/
theorem not_forall_missesNone :
    ¬ ∀ m body a, run m body = .ok a → a.MissesNone m body := by
  intro hnone
  obtain ⟨a, hrun, hmisses⟩ := halvedBody_misses
  exact hmisses (hnone halvedSig halvedBody a hrun)

end SourceAnalysis

end DirectCall
