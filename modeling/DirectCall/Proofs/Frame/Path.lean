import DirectCall.Frame.Solve
import DirectCall.Proofs.Result
import Mathlib.Data.List.Forall2
import Mathlib.Data.List.Induction

/-!
# Paths through a body

A path is a list of moves from a position: on to a successor, or into a handler. `Frame.follow`
carries a frame along a path and never joins it with another one; it is what the frames of the
analysis are compared with. Positions that a flow names lie inside the body (`Allows.target_lt`).
-/

namespace DirectCall

/-- One step of control. -/
inductive Move where
  | next (position : Nat)
  | raise (edge : HandlerEdge)

def Move.target : Move → Nat
  | .next position => position
  | .raise edge => edge.handler

theorem isReal_of_opcode? {insn : Insn} {code : UInt8} (h : insn.opcode? = some code) :
    insn.isReal = true := by
  cases insn <;> simp_all [Insn.opcode?, Insn.isReal]

namespace Flow

/-- Control may pass on in this way from a position. -/
def Allows (flow : Flow) (position : Nat) : Move → Prop
  | .next target => ∃ targets, flow.successors position = .ok targets ∧ target ∈ targets
  | .raise edge => (flow.insnAt position).isReal = true ∧ edge ∈ flow.handlersAt position

/-- The moves lead on, one after another, from a position. -/
def IsPath (flow : Flow) : Nat → List Move → Prop
  | _, [] => True
  | position, move :: rest => flow.Allows position move ∧ flow.IsPath move.target rest

instance (flow : Flow) (position : Nat) : (move : Move) → Decidable (flow.Allows position move)
  | .next target =>
    match h : flow.successors position with
    | .ok targets => decidable_of_iff (target ∈ targets) (by simp [Allows, h])
    | .error _ => .isFalse (by simp [Allows, h])
  | .raise edge => inferInstanceAs (Decidable (_ ∧ edge ∈ flow.handlersAt position))

def decIsPath (flow : Flow) : (position : Nat) → (path : List Move) →
    Decidable (flow.IsPath position path)
  | _, [] => .isTrue trivial
  | position, move :: rest =>
    have := decIsPath flow move.target rest
    inferInstanceAs (Decidable (flow.Allows position move ∧ flow.IsPath move.target rest))

instance (flow : Flow) (position : Nat) (path : List Move) :
    Decidable (flow.IsPath position path) :=
  decIsPath flow position path

/-- Where the moves end. -/
def endOf : Nat → List Move → Nat
  | position, [] => position
  | _, move :: rest => endOf move.target rest

theorem endOf_append (position : Nat) (path : List Move) (move : Move) :
    endOf position (path ++ [move]) = move.target := by
  induction path generalizing position with
  | nil => rfl
  | cons first rest ih => exact ih first.target

theorem isPath_append (flow : Flow) (position : Nat) (path : List Move) (move : Move) :
    flow.IsPath position (path ++ [move]) ↔
      flow.IsPath position path ∧ flow.Allows (endOf position path) move := by
  induction path generalizing position with
  | nil => simp [IsPath, endOf]
  | cons first rest ih => simp [IsPath, endOf, ih, and_assoc]

end Flow

/-! ## Positions -/

namespace Positions

theorem find?_record {ids : List NodeId} {slots : Array (Option Nat)} {position p : Nat}
    {id : NodeId} (h : find? ⟨record slots position ids⟩ id = some p) :
    find? ⟨slots⟩ id = some p ∨ p < position + ids.length := by
  induction ids generalizing slots position with
  | nil => exact .inl h
  | cons first rest ih =>
    rw [record] at h
    rcases ih h with h | h
    · simp only [find?, Array.getElem?_setIfInBounds] at h
      split_ifs at h with heq hlt
      · simp only [Option.join_some, Option.some.injEq] at h
        right
        simp only [List.length_cons]
        omega
      · simp at h
      · exact .inl h
    · right
      simp only [List.length_cons]
      omega

theorem find?_lt {list : InsnList} {id : NodeId} {p : Nat}
    (h : list.positions.find? id = some p) : p < list.size := by
  rcases find?_record h with h | h
  · simp only [find?, Array.getElem?_replicate] at h
    split_ifs at h <;> simp at h
  · simpa [InsnList.size] using h

theorem find_lt {list : InsnList} {id : NodeId} {p : Nat}
    (h : list.positions.find id = .ok p) : p < list.size := by
  unfold find at h
  split at h
  · rename_i q hq
    simp only [Except.ok.injEq] at h
    subst h
    exact find?_lt hq
  · simp at h

end Positions

namespace Flow

variable {body : Body} {flow : Flow}

theorem list_of_ofBody (h : ofBody body = .ok flow) : flow.list = body.insns := by
  obtain ⟨coverages, _, h⟩ := bind_eq_ok.mp h
  simp only [pure, Except.pure, Except.ok.injEq] at h
  rw [← h]

theorem size_of_ofBody (h : ofBody body = .ok flow) : flow.size = body.insns.size := by
  rw [size, list_of_ofBody h]

theorem idAt_of_ofBody (h : ofBody body = .ok flow) (p : Nat) : flow.idAt p = body.insns.idAt p := by
  rw [idAt, list_of_ofBody h]

theorem insnAt_of_ofBody (h : ofBody body = .ok flow) (p : Nat) : flow.insnAt p = body.insns.insnAt p := by
  rw [insnAt, list_of_ofBody h]

theorem positions_of_ofBody (h : ofBody body = .ok flow) :
    flow.positions = flow.list.positions := by
  obtain ⟨coverages, _, h⟩ := bind_eq_ok.mp h
  simp only [pure, Except.pure, Except.ok.injEq] at h
  rw [← h]

theorem handler_lt (h : ofBody body = .ok flow) {c : Coverage} (hc : c ∈ flow.coverages) :
    c.edge.handler < flow.size := by
  have hlist := list_of_ofBody h
  obtain ⟨coverages, hcoverages, h⟩ := bind_eq_ok.mp h
  simp only [pure, Except.pure, Except.ok.injEq] at h
  rw [← h] at hc
  obtain ⟨r, _, hr⟩ := mem_mapM_ok hcoverages hc
  obtain ⟨start, _, hr⟩ := bind_eq_ok.mp hr
  obtain ⟨stop, _, hr⟩ := bind_eq_ok.mp hr
  obtain ⟨handler, hhandler, hr⟩ := bind_eq_ok.mp hr
  simp only [pure, Except.pure, Except.ok.injEq] at hr
  rw [size, hlist, ← hr]
  exact Positions.find_lt hhandler

/-- A handler covers a position if a region with that handler spans it. -/
theorem mem_handlersAt_iff (h : ofBody body = .ok flow) {position : Nat} {edge : HandlerEdge} :
    edge ∈ flow.handlersAt position ↔ ∃ r ∈ body.regions, ∃ start stop handler,
      body.insns.positions.find r.start = .ok start ∧ body.insns.positions.find r.stop = .ok stop ∧
        body.insns.positions.find r.handler = .ok handler ∧ start ≤ position ∧ position < stop ∧
          edge = ⟨handler, r.catchType⟩ := by
  obtain ⟨coverages, hcoverages, h⟩ := bind_eq_ok.mp h
  obtain rfl := Except.ok.inj h
  have hcoverage : ∀ (r : Region) (c : Coverage), coverage body.insns.positions r = .ok c ↔
      ∃ start stop handler, body.insns.positions.find r.start = .ok start ∧
        body.insns.positions.find r.stop = .ok stop ∧ body.insns.positions.find r.handler = .ok handler ∧
          c = ⟨start, stop, handler, r.catchType⟩ := by
    intro r c
    simp only [coverage, bind_eq_ok, pure, Except.pure, Except.ok.injEq]
    constructor
    · rintro ⟨start, hstart, stop, hstop, handler, hhandler, rfl⟩
      exact ⟨start, stop, handler, hstart, hstop, hhandler, rfl⟩
    · rintro ⟨start, stop, handler, hstart, hstop, hhandler, rfl⟩
      exact ⟨start, hstart, stop, hstop, handler, hhandler, rfl⟩
  simp only [handlersAt, List.mem_map, List.mem_filter, Bool.and_eq_true, decide_eq_true_iff]
  constructor
  · rintro ⟨c, ⟨hc, hle, hlt⟩, rfl⟩
    obtain ⟨r, hr, hrc⟩ := mem_mapM_ok hcoverages hc
    obtain ⟨start, stop, handler, hstart, hstop, hhandler, rfl⟩ := (hcoverage r c).mp hrc
    exact ⟨r, hr, start, stop, handler, hstart, hstop, hhandler, hle, hlt, rfl⟩
  · rintro ⟨r, hr, start, stop, handler, hstart, hstop, hhandler, hle, hlt, rfl⟩
    obtain ⟨c, hc, hrc⟩ := exists_of_forall₂ (mapM_eq_ok.mp hcoverages) hr
    obtain rfl := Except.ok.inj (hrc.symm.trans ((hcoverage r _).mpr ⟨start, stop, handler, hstart, hstop,
      hhandler, rfl⟩))
    exact ⟨_, ⟨hc, hle, hlt⟩, rfl⟩

theorem successor_lt (h : ofBody body = .ok flow) {p q : Nat} {targets : List Nat}
    (hs : flow.successors p = .ok targets) (hq : q ∈ targets) : q < flow.size := by
  obtain ⟨jumps, hjumps, hs⟩ := bind_eq_ok.mp hs
  have hjump : ∀ q ∈ jumps, q < flow.size := by
    intro q hq
    obtain ⟨id, _, hid⟩ := mem_mapM_ok hjumps hq
    rw [positions_of_ofBody h] at hid
    exact Positions.find_lt hid
  split_ifs at hs with hends hnext
  · simp only [pure, Except.pure, Except.ok.injEq] at hs
    exact hjump q (hs ▸ hq)
  · simp only [pure, Except.pure, Except.ok.injEq] at hs
    rw [← hs, List.mem_append, List.mem_singleton] at hq
    rcases hq with hq | rfl
    · exact hjump q hq
    · exact hnext

/-- Control stays inside the body. -/
theorem Allows.target_lt (h : ofBody body = .ok flow) {p : Nat} {move : Move}
    (hmove : flow.Allows p move) : move.target < flow.size := by
  cases move with
  | next q =>
    obtain ⟨targets, hs, hq⟩ := hmove
    exact successor_lt h hs hq
  | raise edge =>
    obtain ⟨_, hedge⟩ := hmove
    simp only [handlersAt, List.mem_map, List.mem_filter] at hedge
    obtain ⟨c, ⟨hc, _⟩, rfl⟩ := hedge
    exact handler_lt h hc

end Flow

namespace Frame

variable {V : Type}

section Follow

variable [DecidableEq V] (d : Domain V) (flow : Flow)

/-- The frame that a move from a position hands on. A handler sees the frame before the instruction. -/
def pass (position : Nat) (f : Frame V) : Move → Except Fault (Frame V)
  | .next _ => f.execute d (flow.idAt position) (flow.insnAt position)
  | .raise edge => .ok (f.caught d edge.catchType)

/-- The frame at the end of a path. -/
def follow : Nat → Frame V → List Move → Except Fault (Frame V)
  | _, f, [] => .ok f
  | position, f, move :: rest => do follow move.target (← f.pass d flow position move) rest

theorem follow_append (position : Nat) (f : Frame V) (path : List Move) (move : Move) :
    f.follow d flow position (path ++ [move]) =
      (f.follow d flow position path).bind fun g =>
        g.pass d flow (Flow.endOf position path) move := by
  induction path generalizing position f with
  | nil =>
    simp only [List.nil_append, follow, Flow.endOf, Except.bind, bind]
    cases f.pass d flow position move <;> rfl
  | cons first rest ih =>
    simp only [List.cons_append, follow, Flow.endOf, bind]
    cases h : f.pass d flow position first with
    | error e => rfl
    | ok g => exact ih first.target g

/-- A path that can be followed is followed move by move. -/
theorem follow_append_ok {position : Nat} {f g : Frame V} {path : List Move} {move : Move}
    (h : f.follow d flow position path = .ok g) :
    f.follow d flow position (path ++ [move]) = g.pass d flow (Flow.endOf position path) move := by
  rw [follow_append, h]
  rfl

end Follow

/-! ## Frames slot by slot -/

/-- Two frames of one shape, with related values slot by slot. -/
structure Rel {W : Type} (R : V → W → Prop) (f : Frame V) (g : Frame W) : Prop where
  locals : List.Forall₂ R f.locals.toList g.locals.toList
  stack : List.Forall₂ R f.stack g.stack

/-- All slots: the locals, and the stack from its top. -/
def slots (f : Frame V) : List V := f.locals.toList ++ f.stack

namespace Rel

variable {W : Type} {R : V → W → Prop} {f : Frame V} {g : Frame W}

theorem slots (h : f.Rel R g) : List.Forall₂ R f.slots g.slots :=
  List.rel_append h.locals h.stack

theorem locals_size (h : f.Rel R g) : f.locals.size = g.locals.size := by
  have := h.locals.length_eq
  simpa using this

theorem stack_length (h : f.Rel R g) : f.stack.length = g.stack.length := h.stack.length_eq

theorem imp {S : V → W → Prop} (himp : ∀ v w, R v w → S v w) (h : f.Rel R g) : f.Rel S g :=
  ⟨h.locals.imp himp, h.stack.imp himp⟩

/-- Frames of one shape are related as soon as their slots are. -/
theorem of_slots (hlocals : f.locals.size = g.locals.size)
    (h : List.Forall₂ R f.slots g.slots) : f.Rel R g := by
  have hlength : f.locals.toList.length = g.locals.toList.length := by simpa using hlocals
  have htake := List.forall₂_take f.locals.toList.length h
  have hdrop := List.forall₂_drop f.locals.toList.length h
  simp only [Frame.slots] at htake hdrop
  rw [List.take_left, hlength, List.take_left] at htake
  rw [List.drop_left, hlength, List.drop_left] at hdrop
  exact ⟨htake, hdrop⟩

end Rel

theorem rel_refl {R : V → V → Prop} (hrefl : ∀ v, R v v) (f : Frame V) : f.Rel R f :=
  ⟨List.forall₂_same.mpr fun v _ => hrefl v, List.forall₂_same.mpr fun v _ => hrefl v⟩

theorem forall₂_trans {R S T : V → V → Prop} (htrans : ∀ u v w, R u v → S v w → T u w)
    {us vs ws : List V} (huv : List.Forall₂ R us vs) (hvw : List.Forall₂ S vs ws) :
    List.Forall₂ T us ws := by
  induction huv generalizing ws with
  | nil =>
    cases hvw
    exact .nil
  | cons h _ ih =>
    cases hvw with
    | cons h' hs => exact .cons (htrans _ _ _ h h') (ih hs)

theorem Rel.trans {R S T : V → V → Prop} (htrans : ∀ u v w, R u v → S v w → T u w)
    {f g h : Frame V} (hfg : f.Rel R g) (hgh : g.Rel S h) : f.Rel T h :=
  ⟨forall₂_trans htrans hfg.locals hgh.locals, forall₂_trans htrans hfg.stack hgh.stack⟩

end Frame

end DirectCall
