import DirectCall.Proofs.Flow.Blocks
import DirectCall.Proofs.Frame.Settles
import DirectCall.Proofs.Sources.Cover

/-!
# What instructions use

The analysis reads what an instruction uses off its frame in the end. It could as well take notes at each
visit, early visits included, and add to them whenever the instruction is visited again (`runNoting`): the
notes come to the same (`runNoting_eq`). For a frame only ever gets more producers, the widths in it stay, and
the last visit of a position sees its frame as it is in the end.
-/

namespace DirectCall

/-- The instruction hands a value on: it loads or stores it, drops it, or moves it on the stack. -/
def Insn.handsOn (insn : Insn) : Bool :=
  match insn.opcode?.map Opcode.effect with
  | some .load | some .store | some .pop | some .pop2 | some (.shuffle _) => true
  | _ => false

/-- Number of values that an instruction takes off the stack to compute with. -/
def Insn.operandCount (insn : Insn) : Nat :=
  match insn.opcode?.map Opcode.effect with
  | some .storeElement => 3
  | some (.binary _) => 2
  | some (.unary _) => 1
  | some .call =>
    match Frame.callShape insn with
    | .ok (count, _) => count
    | .error _ => 0
  | some .newMultiArray =>
    match insn with
    | .multiNewArray _ _ dims => dims.toNat
    | _ => 0
  | _ => 0

/-- The values that an instruction computes with, in push order. -/
def Insn.operandsIn {V : Type} (insn : Insn) (f : Frame V) : List V :=
  match insn with
  | .iinc slot _ => (f.locals[slot.toNat]?).toList
  | _ => (f.stack.take insn.operandCount).reverse

/-- Only an increment computes with a local. -/
theorem Insn.operandsIn_of_effect {V : Type} {insn : Insn} {code : UInt8} (hcode : insn.opcode? = some code)
    (h : Opcode.effect code ≠ .increment) (f : Frame V) :
    insn.operandsIn f = (f.stack.take insn.operandCount).reverse := by
  unfold operandsIn
  split
  · obtain rfl := Option.some.inj hcode
    exact absurd rfl h
  · rfl

/-- What an instruction consumes are its operands, if it does not just hand values on. -/
theorem Frame.step_operands {V : Type} {d : Domain V} {id : NodeId} {insn : Insn} {code : UInt8} {f : Frame V}
    {s : Frame.Step V} (hcode : insn.opcode? = some code) (hhandsOn : insn.handsOn = false)
    (heffect : Opcode.effect code ≠ .increment) (h : f.step d id insn code = .ok s) :
    s.1 = insn.operandsIn f ∧ insn.operandCount ≤ f.stack.length := by
  rw [Insn.operandsIn_of_effect hcode heffect]
  unfold step at h
  unfold Insn.operandCount
  unfold Insn.handsOn at hhandsOn
  rw [hcode, Option.map_some] at hhandsOn ⊢
  cases heffect' : Opcode.effect code with
  | nothing | produce =>
    rw [heffect'] at h
    obtain rfl := Except.ok.inj h
    exact ⟨rfl, Nat.zero_le _⟩
  | load | store | pop | pop2 | shuffle kind =>
    rw [heffect'] at hhandsOn
    cases hhandsOn
  | storeElement =>
    rw [heffect'] at h
    obtain ⟨hcount, hoperands, _⟩ := pop_eq_ok.mp h
    exact ⟨hoperands, hcount⟩
  | binary pushes =>
    rw [heffect'] at h
    obtain ⟨a, b, rest, hstack, rfl⟩ := stepBinary_eq_ok.mp h
    simp [hstack]
  | unary pushes =>
    rw [heffect'] at h
    obtain ⟨a, rest, hstack, rfl⟩ := stepUnary_eq_ok.mp h
    simp [hstack]
  | increment => exact absurd heffect' heffect
  | call =>
    rw [heffect'] at h
    obtain ⟨⟨count, pushes⟩, hshape, h⟩ := bind_eq_ok.mp h
    obtain ⟨hcount, rfl⟩ := stepNary_eq_ok.mp h
    simp only [hshape]
    exact ⟨trivial, hcount⟩
  | newMultiArray =>
    simp only [heffect'] at h
    split at h
    · obtain ⟨hcount, rfl⟩ := stepNary_eq_ok.mp h
      exact ⟨rfl, hcount⟩
    · cases h
  | subroutine | unsupported =>
    rw [heffect'] at h
    cases h

open SourceValue

namespace SourceAnalysis

/-! ## Operands -/

section Operands

variable {size : Nat} {id : NodeId} {insn : Insn} {f after : Frame SourceValue}

/-- What is computed at one position does not depend on the size of the body. -/
theorem step_domain (size : Nat) (f : Frame SourceValue) (id : NodeId) (insn : Insn) (code : UInt8) :
    f.step (domain size) id insn code = f.step (domain 0) id insn code := rfl

/-- An instruction that can be executed, and does not just hand values on, uses its operands. -/
theorem usedBy_eq_operandsIn (h : f.execute (domain size) id insn = .ok after)
    (hhandsOn : insn.handsOn = false) :
    usedBy insn id f = insn.operandsIn f ∧ insn.operandCount ≤ f.stack.length := by
  rcases execute_eq_ok.mp h with ⟨hcode, _⟩ | ⟨code, operands, hcode, hstep⟩
  · have hcount : insn.operandCount = 0 := by simp [Insn.operandCount, hcode]
    have hoperands : insn.operandsIn f = [] := by
      unfold Insn.operandsIn
      split
      · cases hcode
      · simp [hcount]
    refine ⟨?_, hcount ▸ Nat.zero_le _⟩
    simp only [hoperands, usedBy, hcode]
  · rw [step_domain] at hstep
    by_cases heffect : Opcode.effect code = .increment
    · unfold Frame.step at hstep
      rw [heffect] at hstep
      obtain ⟨slot, delta, v, g, rfl, hv, _, _⟩ := Frame.stepIncrement_eq_ok.mp hstep
      obtain rfl := Option.some.inj hcode
      exact ⟨rfl, Nat.zero_le _⟩
    · obtain ⟨hoperands, hcount⟩ := Frame.step_operands hcode hhandsOn heffect hstep
      refine ⟨?_, hcount⟩
      rw [← hoperands]
      unfold usedBy
      unfold Insn.handsOn at hhandsOn
      simp only [hcode, Option.map_some] at hhandsOn ⊢
      cases heffect' : Opcode.effect code with
      | nothing | produce =>
        unfold Frame.step at hstep
        rw [heffect'] at hstep
        obtain ⟨rfl, _⟩ := Prod.mk.inj (Except.ok.inj hstep)
        rfl
      | load | store | pop | pop2 | shuffle kind =>
        rw [heffect'] at hhandsOn
        cases hhandsOn
      | storeElement | binary _ | unary _ | call | newMultiArray => simp only [hstep]
      | increment => exact absurd heffect' heffect
      | subroutine | unsupported =>
        unfold Frame.step at hstep
        rw [heffect'] at hstep
        cases hstep

end Operands

/-! ## Notes -/

/-- Notes of the values that an instruction used, with what it uses now. Of each value all producers
count. -/
def note (noted used : List SourceValue) : List SourceValue :=
  if noted.length = used.length then List.zipWith SourceValue.join noted used else used

/-- All values that are copied count as one. -/
def noteCopy (noted : List SourceValue) (copied : SourceValue) : List SourceValue :=
  match noted with
  | [] => [copied]
  | first :: rest => first.join copied :: rest

/-- The notes on an instruction after it was executed once more. -/
def noteVisit (insn : Insn) (id : NodeId) (f : Frame SourceValue) (noted : List SourceValue) :
    List SourceValue :=
  match insn, insn.opcode?.map Opcode.effect with
  | .op _, some (.shuffle kind) =>
    match kind.run (domain 0).size ((domain 0).copy id insn) f.stack with
    | some (copied, _) => copied.foldl noteCopy noted
    | none => noted
  | _, _ => note noted (usedBy insn id f)

/-- Notes per position. -/
abbrev Notes := Nat → List SourceValue

/-- The notes after a position was visited in a state of the solver. -/
def Notes.visit (notes : Notes) (flow : Flow) (s : Frame.Progress SourceValue) (position : Nat) : Notes :=
  match s.frames.getD position none with
  | none => notes
  | some f => Function.update notes position
      (noteVisit (flow.insnAt position) (flow.idAt position) f (notes position))

section

variable (notes : Notes) (flow : Flow) {s : Frame.Progress SourceValue} {position : Nat}

theorem Notes.visit_of_none (h : s.frames.getD position none = none) :
    notes.visit flow s position position = notes position := by
  simp only [Notes.visit, h]

theorem Notes.visit_of_some {f : Frame SourceValue} (h : s.frames.getD position none = some f) :
    notes.visit flow s position position =
      noteVisit (flow.insnAt position) (flow.idAt position) f (notes position) := by
  simp only [Notes.visit, h, Function.update_self]

theorem Notes.visit_of_ne (s : Frame.Progress SourceValue) {p : Nat} (h : p ≠ position) :
    notes.visit flow s position p = notes p := by
  unfold Notes.visit
  cases s.frames.getD position none with
  | none => rfl
  | some f => exact Function.update_of_ne h _ _

end

/-- Visits queued positions until none is left, and takes notes of each visit. -/
def settleNoting (d : Domain SourceValue) (flow : Flow) :
    Nat → Frame.Progress SourceValue → Notes → Except Fault (Frame.Frames SourceValue × Notes)
  | 0, s, notes => if s.queue.isEmpty then .ok (s.frames, notes) else .error .unsettled
  | visits + 1, s, notes =>
    match s.queue with
    | [] => .ok (s.frames, notes)
    | position :: queue => do
      let s := s.dequeue position queue
      settleNoting d flow visits (← s.visit d flow position) (notes.visit flow s position)

/-- The analysis that takes notes on the way. -/
def runNoting (m : MethodSig) (body : Body) : Except Fault (Frame.Frames SourceValue × Notes) := do
  let d := domainOf body
  let flow ← Flow.ofBody body
  if flow.size = 0 then throw (.noCode m.name m.descriptor)
  let entry ← Frame.entry d m body.maxLocals
  settleNoting d flow (Frame.visitBound (d.height (Frame.bracketBound m body)) flow.size entry.locals.size)
    (.start flow.size entry) fun _ => []

/-! ## Growth -/

/-- The value takes as many slots as another one, or misses none of its producers. -/
def Accounts (x v : SourceValue) : Prop := x.size = v.size ∨ x.Covers v

theorem joinAbsorbs_accounts (size : Nat) : (domain size).JoinAbsorbs Accounts where
  refl _ := .inl rfl
  left x y v h := by
    rcases h with hsize | hcovers
    · exact .inl hsize
    · exact .inr (((joinBounds size).left x y).trans hcovers)
  right x y := .inr ((joinBounds size).right x y)

/-- A value that accounts for whatever another one accounts for has its width and all its producers. -/
theorem agrees_of_outgrows {x y : SourceValue} {fresh : NodeId} (hfresh : fresh ∉ x.producers)
    (h : Outgrows Accounts x y) : x.Agrees y := by
  constructor
  · have hprobe : Accounts x ⟨y.size, [fresh]⟩ := h _ (.inl rfl)
    exact hprobe.resolve_right fun hcovers => hfresh (hcovers fresh (List.mem_singleton_self fresh))
  · intro id hid
    have hprobe : Accounts x ⟨x.size + 1, [id]⟩ :=
      h _ (.inr fun other hother => List.mem_singleton.mp hother ▸ hid)
    have hcovers := hprobe.resolve_left (by show x.size ≠ x.size + 1; omega)
    exact hcovers id (List.mem_singleton_self id)

/-- The second value is the first one with more producers, if any; both list them in order. -/
structure Grown (v w : SourceValue) : Prop where
  agrees : w.Agrees v
  before : v.producers.Pairwise Before
  after : w.producers.Pairwise Before

theorem Grown.trans {u v w : SourceValue} (h : Grown u v) (h' : Grown v w) : Grown u w :=
  ⟨h'.agrees.trans h.agrees, h.before, h'.after⟩

theorem sim_grown (size : Nat) : (domain size).Sim (domain size) Grown :=
  sim_of (fun _ => ⟨.refl _, .nil, .nil⟩)
    (fun _ _ => ⟨.refl _, List.pairwise_singleton _ _, List.pairwise_singleton _ _⟩)
    fun _ _ _ h => ⟨⟨h.agrees.1, fun _ hid => hid⟩, List.pairwise_singleton _ _, List.pairwise_singleton _ _⟩

theorem ext_of_mem_iff {v w : SourceValue} (hsize : v.size = w.size) (hv : v.producers.Pairwise Before)
    (hw : w.producers.Pairwise Before) (h : ∀ id, id ∈ v.producers ↔ id ∈ w.producers) : v = w := by
  cases v
  cases w
  exact congrArg₂ SourceValue.mk hsize (eq_of_mem_iff hv hw h)

theorem Grown.join_eq {v w : SourceValue} (h : Grown v w) : v.join w = w := by
  apply ext_of_mem_iff
  · exact h.agrees.1.symm
  · exact union_pairwise h.before h.after
  · exact h.after
  · intro id
    exact mem_union.trans ⟨fun hid => hid.elim (h.agrees.2 id) (fun hid => hid), .inr⟩

theorem note_grown {vs ws : List SourceValue} (h : List.Forall₂ Grown vs ws) : note vs ws = ws := by
  unfold note
  rw [if_pos h.length_eq]
  induction h with
  | nil => rfl
  | cons hhead _ ih => rw [List.zipWith_cons_cons, hhead.join_eq, ih]

section Copies

theorem foldl_noteCopy (first : SourceValue) (copied : List SourceValue) :
    copied.foldl noteCopy [first] = [copied.foldl SourceValue.join first] := by
  induction copied generalizing first with
  | nil => rfl
  | cons v rest ih => exact ih (first.join v)

theorem foldl_noteCopy_nil (copied : List SourceValue) : copied.foldl noteCopy [] = mergeCopies copied := by
  cases copied with
  | nil => rfl
  | cons v rest => exact foldl_noteCopy v rest

theorem size_foldl_join (v : SourceValue) (vs : List SourceValue) :
    (vs.foldl SourceValue.join v).size = v.size := by
  induction vs generalizing v with
  | nil => rfl
  | cons w rest ih => exact ih (v.join w)

theorem mem_foldl_join {v : SourceValue} {vs : List SourceValue} {id : NodeId} :
    id ∈ (vs.foldl SourceValue.join v).producers ↔
      id ∈ v.producers ∨ ∃ w ∈ vs, id ∈ w.producers := by
  induction vs generalizing v with
  | nil => simp
  | cons w rest ih =>
    rw [List.foldl_cons, ih, List.exists_mem_cons_iff, ← or_assoc]
    exact or_congr_left mem_union

theorem pairwise_foldl_join {v : SourceValue} {vs : List SourceValue} (hv : v.producers.Pairwise Before)
    (hvs : ∀ w ∈ vs, w.producers.Pairwise Before) :
    (vs.foldl SourceValue.join v).producers.Pairwise Before := by
  induction vs generalizing v with
  | nil => exact hv
  | cons w rest ih =>
    rw [List.forall_mem_cons] at hvs
    exact ih (union_pairwise hv hvs.1) hvs.2

theorem noteCopies_grown {vs ws : List SourceValue} (h : List.Forall₂ Grown vs ws) :
    ws.foldl noteCopy (mergeCopies vs) = mergeCopies ws := by
  cases h with
  | nil => rfl
  | @cons v w vs ws hhead hrest =>
    have hbefore : ∀ u ∈ vs, u.producers.Pairwise Before := by
      intro u hu
      obtain ⟨_, _, hgrown⟩ := exists_of_forall₂ hrest hu
      exact hgrown.before
    have hafter : ∀ u ∈ ws, u.producers.Pairwise Before := by
      intro u hu
      obtain ⟨_, _, hgrown⟩ := exists_of_forall₂ hrest.flip hu
      exact hgrown.after
    have hmerged := pairwise_foldl_join hhead.before hbefore
    rw [mergeCopies, mergeCopies, foldl_noteCopy, List.singleton_inj, List.foldl_cons]
    apply ext_of_mem_iff
    · rw [size_foldl_join, size_foldl_join]
      exact (size_foldl_join v vs).trans hhead.agrees.1.symm
    · exact pairwise_foldl_join (union_pairwise hmerged hhead.after) hafter
    · exact pairwise_foldl_join hhead.after hafter
    · intro id
      rw [mem_foldl_join, mem_foldl_join]
      constructor
      · rintro (hid | hid)
        · rcases mem_union.mp hid with hid | hid
          · rcases mem_foldl_join.mp hid with hid | ⟨u, hu, hid⟩
            · exact .inl (hhead.agrees.2 id hid)
            · obtain ⟨u', hu', hgrown⟩ := exists_of_forall₂ hrest hu
              exact .inr ⟨u', hu', hgrown.agrees.2 id hid⟩
          · exact .inl hid
        · exact .inr hid
      · rintro (hid | hid)
        · exact .inl (mem_union.mpr (.inr hid))
        · exact .inr hid

end Copies

section Visits

variable {size : Nat} {id : NodeId} {insn : Insn} {f g after : Frame SourceValue}

theorem usedBy_shuffle {code : UInt8} {kind : Shuffle} (h : Opcode.effect code = .shuffle kind) (id : NodeId)
    (f : Frame SourceValue) :
    usedBy (.op code) id f =
      match kind.run (domain 0).size ((domain 0).copy id (.op code)) f.stack with
      | some (copied, _) => mergeCopies copied
      | none => [] := by
  cases hrun : kind.run (domain 0).size ((domain 0).copy id (.op code)) f.stack with
  | none => simp only [usedBy, Insn.opcode?, h, hrun]
  | some copied => simp only [usedBy, Insn.opcode?, h, hrun]

/-- The first note is what is used. -/
theorem noteVisit_nil (insn : Insn) (id : NodeId) (f : Frame SourceValue) :
    noteVisit insn id f [] = usedBy insn id f := by
  have hfirst : ∀ used, note [] used = used := by
    intro used
    cases used <;> rfl
  unfold noteVisit
  split
  · rename_i code kind heffect
    rw [usedBy_shuffle (Option.some.inj heffect)]
    split
    · exact foldl_noteCopy_nil _
    · rfl
  · exact hfirst _

/-- An instruction that copies nothing uses grown values if its frame has grown. -/
theorem usedBy_grown (h : f.Rel Grown g) (hafter : f.execute (domain size) id insn = .ok after)
    (hcopies : ∀ code kind, insn = .op code → Opcode.effect code ≠ .shuffle kind) :
    List.Forall₂ Grown (usedBy insn id f) (usedBy insn id g) := by
  rcases execute_eq_ok.mp hafter with ⟨hcode, _⟩ | ⟨code, operands, hcode, hstep⟩
  · simp only [usedBy, hcode]
    exact .nil
  · have hwidths : Frame.SameWidths (domain 0) (domain 0) f g := h.imp fun _ _ hgrown => hgrown.agrees.1.symm
    rw [step_domain] at hstep
    obtain ⟨⟨operands', left⟩, hstep', hoperands, _⟩ :=
      Frame.step_sim (sim_grown 0) h (fun _ => hwidths) hstep
    simp only [usedBy, hcode, hstep, hstep']
    cases heffect : Opcode.effect code with
    | unary _ | binary _ | storeElement | call | newMultiArray => exact hoperands
    | increment =>
      unfold Frame.step at hstep
      rw [heffect] at hstep
      obtain ⟨slot, delta, v, _, rfl, hv, _, _⟩ := Frame.stepIncrement_eq_ok.mp hstep
      obtain ⟨w, hw, hgrown⟩ := h.getLocal hv
      simp only [hv, hw]
      exact .cons hgrown .nil
    | shuffle kind =>
      cases insn with
      | op opcode =>
        obtain rfl := Option.some.inj hcode
        exact absurd heffect (hcopies opcode kind rfl)
      | _ => exact .nil
    | _ => exact .nil

/-- Notes of what was used in an early frame come to what is used in the frame that it has grown to. -/
theorem noteVisit_grown (h : f.Rel Grown g) (hafter : f.execute (domain size) id insn = .ok after) :
    noteVisit insn id g (usedBy insn id f) = usedBy insn id g := by
  unfold noteVisit
  split
  · rename_i code kind heffect
    have heffect' : Opcode.effect code = .shuffle kind := Option.some.inj heffect
    rcases execute_eq_ok.mp hafter with ⟨hcode, _⟩ | ⟨code', operands, hcode, hstep⟩
    · cases hcode
    · obtain rfl := Option.some.inj hcode
      unfold Frame.step at hstep
      rw [heffect'] at hstep
      obtain ⟨copied, stack, hrun, _⟩ := Frame.stepShuffle_eq_ok.mp hstep
      have hstack : List.Forall₂ (fun v w => Grown v w ∧ v.size = w.size) f.stack g.stack :=
        h.stack.imp fun _ _ hgrown => ⟨hgrown, hgrown.agrees.1.symm⟩
      obtain ⟨⟨copied', stack'⟩, hrun', hcopied, _⟩ :=
        Frame.shuffle_sim ((sim_grown size).copy id (.op code)) kind hstack hrun
      rw [usedBy_shuffle heffect', usedBy_shuffle heffect']
      simp only [show kind.run (domain 0).size ((domain 0).copy id (.op code)) f.stack =
        some (copied, stack) from hrun, show kind.run (domain 0).size ((domain 0).copy id (.op code))
          g.stack = some (copied', stack') from hrun']
      exact noteCopies_grown hcopied
  · rename_i hcopies
    refine note_grown (usedBy_grown h hafter fun code kind hinsn heffect => ?_)
    subst hinsn
    exact hcopies code kind rfl (congrArg some heffect)

end Visits

/-! ## The run -/

section Run

open DirectCall.Frame (Frames Grows)
open DirectCall.Frame.Progress (Sound)

variable {body : Body} {flow : Flow} {locals : Nat} {s t : Frame.Progress SourceValue} {notes : Notes}

/-- Values that outgrow others are these with more producers. -/
theorem rel_grown {size : Nat} {f g : Frame SourceValue} (hf : f.All (Ordered size))
    (hg : g.All (Ordered size)) (h : g.Rel (Outgrows Accounts) f) : f.Rel Grown g := by
  have hafter : g.Rel (fun w v => w.Ordered size ∧ Outgrows Accounts w v) f :=
    hg.rel.trans (fun _ _ _ hw hout => ⟨hw.2, hw.1 ▸ hout⟩) h
  have hboth : g.Rel (fun w v => (w.Ordered size ∧ Outgrows Accounts w v) ∧ v.Ordered size) f :=
    hafter.trans (fun _ _ _ hw hv => ⟨hv.1 ▸ hw, hv.1 ▸ hv.2⟩) hf.rel
  have hgrown : g.Rel (fun w v => Grown v w) f := by
    apply hboth.imp
    rintro w v ⟨⟨hw, hout⟩, hv⟩
    have hfresh : NodeId.mk size ∉ w.producers := fun hmem => Nat.lt_irrefl _ (hw.inside _ hmem)
    exact ⟨agrees_of_outgrows hfresh hout, hv.pairwise, hw.pairwise⟩
  exact ⟨hgrown.locals.flip, hgrown.stack.flip⟩

/-- What the notes say of each position: nothing if it has no frame; else what an early frame of it uses,
if it was visited; and what its frame uses as it is now, unless it is to be visited again. -/
structure Noted (d : Domain SourceValue) (flow : Flow) (s : Frame.Progress SourceValue) (notes : Notes) :
    Prop where
  fresh : ∀ p, s.frames.getD p none = none → notes p = []
  early : ∀ p f, s.frames.getD p none = some f → notes p = [] ∨
    ∃ old after, old.Rel Grown f ∧ old.execute d (flow.idAt p) (flow.insnAt p) = .ok after ∧
      notes p = usedBy (flow.insnAt p) (flow.idAt p) old
  last : ∀ p f, s.frames.getD p none = some f →
    p ∈ s.queue ∨ notes p = usedBy (flow.insnAt p) (flow.idAt p) f

/-- Whether it is the first one or not, the notes after a visit say what the frame uses as it is now. -/
theorem Noted.noteVisit_eq {d : Domain SourceValue} {size : Nat} (hd : d = domain size)
    (h : Noted d flow s notes) {p : Nat} {f : Frame SourceValue} (hf : s.frames.getD p none = some f) :
    noteVisit (flow.insnAt p) (flow.idAt p) f (notes p) = usedBy (flow.insnAt p) (flow.idAt p) f := by
  subst hd
  rcases h.early p f hf with hnone | ⟨old, after, hgrown, hafter, hnotes⟩
  · rw [hnone]
    exact noteVisit_nil _ _ f
  · rw [hnotes]
    exact noteVisit_grown hgrown hafter

/-- A visit keeps the notes true. -/
theorem Noted.visit (hflow : Flow.ofBody body = .ok flow)
    (hs : s.Sound flow locals (Ordered body.insns.nodes.size)) (h : Noted (domainOf body) flow s notes)
    {position : Nat} {queue : List Nat} (hqueue : s.queue = position :: queue)
    (ht : (s.dequeue position queue).visit (domainOf body) flow position = .ok t) :
    Noted (domainOf body) flow t (notes.visit flow (s.dequeue position queue) position) := by
  have hinside : ∀ p move, flow.Allows p move → move.target < flow.size :=
    fun p move hmove => hmove.target_lt hflow
  obtain ⟨hsound, _, _⟩ := hs.visit (rankedOn _) hinside (SourceValue.keepsAll hflow) hqueue ht
  obtain ⟨hadvance, hclosed⟩ := Frame.Progress.visit_advance (joinAbsorbs_accounts _) hinside
    (Frame.Progress.dequeue_wellFormed hs.wellFormed hqueue) ht
  -- What a visit raises has grown.
  have hgrows : ∀ p f, s.frames.getD p none = some f →
      ∃ g, t.frames.getD p none = some g ∧ f.Rel Grown g := by
    intro p f hf
    obtain ⟨g, hg, hrel⟩ := hadvance.grows p f hf
    exact ⟨g, hg, rel_grown (hs.all p f hf) (hsound.all p g hg) hrel⟩
  have hother : ∀ p, p ≠ position →
      (notes.visit flow (s.dequeue position queue) position) p = notes p :=
    fun p hp => notes.visit_of_ne flow _ hp
  have hvisited : ∀ f, s.frames.getD position none = some f →
      (notes.visit flow (s.dequeue position queue) position) position =
        usedBy (flow.insnAt position) (flow.idAt position) f :=
    fun f hf => (notes.visit_of_some flow hf).trans (h.noteVisit_eq rfl hf)
  have hmissed : s.frames.getD position none = none →
      (notes.visit flow (s.dequeue position queue) position) position = [] :=
    fun hnone => (notes.visit_of_none flow hnone).trans (h.fresh position hnone)
  constructor
  case fresh =>
    intro p hnone
    have hbefore : s.frames.getD p none = none := by
      cases hf : s.frames.getD p none with
      | none => rfl
      | some f =>
        obtain ⟨g, hg, _⟩ := hgrows p f hf
        rw [hnone] at hg
        cases hg
    by_cases hp : p = position
    · subst hp
      exact hmissed hbefore
    · rw [hother p hp]
      exact h.fresh p hbefore
  case early =>
    intro p g hg
    cases hf : s.frames.getD p none with
    | none =>
      left
      by_cases hp : p = position
      · subst hp
        exact hmissed hf
      · rw [hother p hp]
        exact h.fresh p hf
    | some f =>
      obtain ⟨g', hg', hgrown⟩ := hgrows p f hf
      obtain rfl := Option.some.inj (hg.symm.trans hg')
      by_cases hp : p = position
      · subst hp
        obtain ⟨after, hafter⟩ := (hclosed f hf).executes
        exact .inr ⟨f, after, hgrown, hafter, hvisited f hf⟩
      · rw [hother p hp]
        rcases h.early p f hf with hnone | ⟨old, after, hold, hafter, hnotes⟩
        · exact .inl hnone
        · exact .inr ⟨old, after, hold.trans (fun _ _ _ hxy hyz => hxy.trans hyz) hgrown, hafter, hnotes⟩
  case last =>
    intro p g hg
    rcases hadvance.changed p with hsame | hmem
    · have hf : s.frames.getD p none = some g := hsame.symm.trans hg
      by_cases hp : p = position
      · subst hp
        exact .inr (hvisited g hf)
      · rw [hother p hp]
        rcases h.last p g hf with hmem | hnotes
        · rw [hqueue] at hmem
          exact .inl (hadvance.queue p ((List.mem_cons.mp hmem).resolve_left hp))
        · exact .inr hnotes
    · exact .inl hmem

/-- What the notes say in the end: of each position with a frame what is used in it. -/
def Final (flow : Flow) (frames : Frames SourceValue) (notes : Notes) : Prop :=
  ∀ p, notes p = match frames.getD p none with
    | some f => usedBy (flow.insnAt p) (flow.idAt p) f
    | none => []

theorem Noted.final {d : Domain SourceValue} (h : Noted d flow s notes) (hqueue : s.queue = []) :
    Final flow s.frames notes := by
  intro p
  cases hf : s.frames.getD p none with
  | none => exact h.fresh p hf
  | some f => exact (h.last p f hf).resolve_left (by simp [hqueue])

/-- The solver that takes notes finds the same frames, and the notes say in the end what is used in them. -/
theorem settleNoting_eq (hflow : Flow.ofBody body = .ok flow) {visits : Nat} {frames : Frames SourceValue}
    (hs : s.Sound flow locals (Ordered body.insns.nodes.size)) (hnoted : Noted (domainOf body) flow s notes)
    (h : s.settle (domainOf body) flow visits = .ok frames) :
    ∃ notes', settleNoting (domainOf body) flow visits s notes = .ok (frames, notes') ∧
      Final flow frames notes' := by
  have hinside : ∀ p move, flow.Allows p move → move.target < flow.size :=
    fun p move hmove => hmove.target_lt hflow
  induction visits generalizing s notes with
  | zero =>
    rw [Frame.Progress.settle] at h
    split_ifs at h with hempty
    obtain rfl := Except.ok.inj h
    refine ⟨notes, ?_, hnoted.final (List.isEmpty_iff.mp hempty)⟩
    rw [settleNoting, if_pos hempty]
  | succ visits ih =>
    rw [Frame.Progress.settle] at h
    rw [settleNoting]
    cases hqueue : s.queue with
    | nil =>
      rw [hqueue] at h
      obtain rfl := Except.ok.inj h
      exact ⟨notes, rfl, hnoted.final hqueue⟩
    | cons position queue =>
      rw [hqueue] at h
      obtain ⟨t, ht, h⟩ := bind_eq_ok.mp h
      obtain ⟨hsound, _, _⟩ := hs.visit (rankedOn _) hinside (SourceValue.keepsAll hflow) hqueue ht
      obtain ⟨notes', hrun, hfinal⟩ := ih hsound (hnoted.visit hflow hs hqueue ht) h
      exact ⟨notes', bind_eq_ok.mpr ⟨t, ht, hrun⟩, hfinal⟩

end Run

/-! ## The analysis -/

variable {m : MethodSig} {body : Body} {a : SourceAnalysis}

theorem start_noted (d : Domain SourceValue) (flow : Flow) {entry : Frame SourceValue} (hpos : 0 < flow.size) :
    Noted d flow (.start flow.size entry) fun _ => [] where
  fresh _ _ := rfl
  early _ _ _ := .inl rfl
  last p f hf := by
    rw [Frame.Progress.start, Frame.Progress.getD_set (by simpa using hpos)] at hf
    split_ifs at hf with hp
    · exact .inl (by simp [Frame.Progress.start, hp])
    · simp only [Array.getD_eq_getD_getElem?, Array.getElem?_replicate] at hf
      split_ifs at hf <;> simp at hf

/-- What the analysis lists is what is used in its frames. -/
theorem consumedAt_final (h : run m body = .ok a) : Final a.flow a.frames a.consumedAt := by
  obtain ⟨hframes, hflow, hconsumed⟩ := run_eq_ok h
  obtain ⟨_, entry, _, hentry, _⟩ := Frame.analyze_closed (joinBounds _) hframes
  obtain ⟨hpos, _⟩ := Frame.settle_of_analyze hframes hflow hentry
  intro p
  unfold consumedAt
  rw [hconsumed, Array.getD_eq_getD_getElem?, Array.getElem?_map]
  by_cases hp : p < a.flow.size
  · rw [Array.getElem?_range, if_pos hp]
    rfl
  · have hnone : a.frames.getD p none = none := by
      rw [← Option.not_isSome_iff_eq_none, Frame.isSome_iff_reaches hframes hflow]
      exact fun hreaches => hp (hreaches.lt hflow hpos)
    rw [Array.getElem?_range, if_neg hp, hnone]
    rfl

/-- Notes taken on the way and what is read off the frames in the end are the same. -/
theorem runNoting_eq (h : run m body = .ok a) : runNoting m body = .ok (a.frames, a.consumedAt) := by
  obtain ⟨hframes, hflow, _⟩ := run_eq_ok h
  obtain ⟨flow, hflow', hframes'⟩ := bind_eq_ok.mp hframes
  obtain rfl := Except.ok.inj (hflow.symm.trans hflow')
  by_cases hsize : a.flow.size = 0
  · rw [if_pos hsize] at hframes'
    cases hframes'
  · rw [if_neg hsize] at hframes'
    obtain ⟨entry, hentry, hsettle⟩ := bind_eq_ok.mp hframes'
    have hpos : 0 < a.flow.size := Nat.pos_of_ne_zero hsize
    have hsound : (Frame.Progress.start a.flow.size entry).Sound a.flow entry.locals.size _ :=
      Frame.Progress.start_sound hpos (Frame.entry_stack hentry) (entry_ordered hentry)
    obtain ⟨notes, hrun, hfinal⟩ := settleNoting_eq hflow hsound (start_noted _ a.flow hpos) hsettle
    have hsame : notes = a.consumedAt := by
      funext p
      exact (hfinal p).trans (consumedAt_final h p).symm
    rw [← hsame]
    refine bind_eq_ok.mpr ⟨a.flow, hflow, ?_⟩
    rw [if_neg hsize]
    exact bind_eq_ok.mpr ⟨entry, hentry, hrun⟩

/-- The producers that the source analysis finds: none is missed on any path exactly if the widths that matter
are kept, so none is missed if widths agree wherever paths meet; and for each instruction that does not just
hand values on it lists the operands in push order, as they are in the end and as notes at all visits have
them. -/
theorem finds_producers (h : run m body = .ok a) :
    (a.MissesNone m body ↔ a.KeepWidths m body) ∧ (a.WidthsMeet m body → a.MissesNone m body) ∧
      (∀ p, a.flow.Reaches p → (a.flow.insnAt p).handsOn = false → ∃ f, a.frameAt p = some f ∧
        (a.flow.insnAt p).operandCount ≤ f.stack.length ∧
          a.consumedAt p = (a.flow.insnAt p).operandsIn f) ∧
      runNoting m body = .ok (a.frames, a.consumedAt) := by
  obtain ⟨hframes, hflow, _⟩ := run_eq_ok h
  obtain ⟨flow, entry, hflow', _, hclosed⟩ := Frame.analyze_closed (joinBounds _) hframes
  obtain rfl := Except.ok.inj (hflow.symm.trans hflow')
  refine ⟨missesNone_iff h, missesNone_of_widthsMeet h, fun p hreaches hhandsOn => ?_, runNoting_eq h⟩
  obtain ⟨f, hf⟩ :=
    Option.isSome_iff_exists.mp ((Frame.isSome_iff_reaches hframes hflow p).mpr hreaches)
  obtain ⟨after, hafter⟩ := (hclosed.closedAt p f hf).executes
  obtain ⟨hused, hcount⟩ := usedBy_eq_operandsIn hafter hhandsOn
  have hconsumed := consumedAt_final h p
  rw [hf] at hconsumed
  exact ⟨f, hf, hcount, hconsumed.trans hused⟩

/-- In the body that cuts a local in half, widths are not kept; what its branch uses is known all the same. -/
theorem finds_producers_halved : ∃ a, run halvedSig halvedBody = .ok a ∧
    ¬ a.KeepWidths halvedSig halvedBody ∧ ¬ a.WidthsMeet halvedSig halvedBody ∧
      (∃ f, a.frameAt 1 = some f ∧ a.consumedAt 1 = f.stack) ∧
      runNoting halvedSig halvedBody = .ok (a.frames, a.consumedAt) := by
  obtain ⟨a, hrun, hmisses⟩ := halvedBody_misses
  obtain ⟨hiff, hmeet, hconsumed, hnotes⟩ := finds_producers hrun
  obtain ⟨_, hflow, _⟩ := run_eq_ok hrun
  have hsame : a.flow = halvedFlow := Except.ok.inj (hflow.symm.trans rfl)
  have hknown : (run halvedSig halvedBody).toOption.map (fun a => a.frameAt 1) =
      some (some ⟨#[⟨1, []⟩, ⟨1, []⟩], [⟨1, [⟨0⟩]⟩]⟩) := by decide +kernel
  have hbranch : a.flow.insnAt 1 = .jump Opcode.ifeq ⟨5⟩ := by
    rw [hsame]
    decide +kernel
  obtain ⟨f, hf, _, hused⟩ := hconsumed 1 ⟨[.next 1], hsame ▸ by decide +kernel, rfl⟩ (hbranch ▸ rfl)
  rw [hrun] at hknown
  obtain rfl := Option.some.inj (hf.symm.trans (Option.some.inj hknown))
  refine ⟨a, hrun, fun hkeep => hmisses (hiff.mpr hkeep), fun h => hmisses (hmeet h), ?_, hnotes⟩
  exact ⟨_, hf, hused.trans (by rw [hbranch]; rfl)⟩

end SourceAnalysis

end DirectCall
