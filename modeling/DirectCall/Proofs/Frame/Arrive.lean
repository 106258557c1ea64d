import DirectCall.Proofs.Frame.Fit
import DirectCall.Proofs.Frame.Keep
import DirectCall.Proofs.Frame.Simulate

/-!
# What arrives at a position

A frame arrives at a position when a visit hands it on to there. The answer of the analysis absorbs all
that arrives (`Arrives.absorbed`), and it is made by joins of nothing else (`analyze_invariant`). So a
local has a firm value exactly if every frame that arrives has it there (`local_eq_iff`).

Closed frames absorb what moves hand on (`Closed`). Where a value that absorbs another one is not changed by
the join with it, nothing that is handed on changes a frame any more (`analyze_stable`). In a semilattice that is
so of all values (`Domain.Semilattice.absorptive`).
-/

namespace DirectCall

variable {V : Type}

/-- A join gives the value only if both sides are that value. -/
def Domain.Firm (d : Domain V) (v : V) : Prop := ∀ x y, d.join x y = v ↔ x = v ∧ y = v

/-- Some path leads from the start of the body to the position. -/
def Flow.Reaches (flow : Flow) (position : Nat) : Prop :=
  ∃ path, flow.IsPath 0 path ∧ endOf 0 path = position

theorem Flow.Reaches.move {flow : Flow} {position : Nat} (h : flow.Reaches position) {move : Move}
    (hmove : flow.Allows position move) : flow.Reaches move.target := by
  obtain ⟨path, hpath, rfl⟩ := h
  exact ⟨path ++ [move], (isPath_append flow 0 path move).mpr ⟨hpath, hmove⟩, endOf_append 0 path move⟩

theorem Flow.Reaches.next {flow : Flow} {position next : Nat} (h : flow.Reaches position)
    {targets : List Nat} (hsuccessors : flow.successors position = .ok targets) (hnext : next ∈ targets) :
    flow.Reaches next :=
  h.move (show flow.Allows position (.next next) from ⟨targets, hsuccessors, hnext⟩)

/-- What holds at the start and is kept by moves holds wherever a path leads. -/
theorem Flow.Reaches.induct {flow : Flow} {P : Nat → Prop} (hstart : P 0)
    (hmove : ∀ p move, flow.Reaches p → P p → flow.Allows p move → P move.target) {position : Nat}
    (h : flow.Reaches position) : P position := by
  obtain ⟨path, hpath, rfl⟩ := h
  induction path using List.reverseRecOn with
  | nil => exact hstart
  | append_singleton path move ih =>
    obtain ⟨hpath, hlast⟩ := (isPath_append flow 0 path move).mp hpath
    rw [endOf_append]
    exact hmove _ move ⟨path, hpath, rfl⟩ (ih hpath) hlast

namespace Frame

/-- In the course of the analysis the frame is handed on to the position. -/
inductive Arrives [DecidableEq V] (d : Domain V) (flow : Flow) (entry : Frame V) :
    Nat → Frame V → Prop where
  | start : Arrives d flow entry 0 entry
  | move {s : Progress V} {position : Nat} {before g : Frame V} {move : Move} :
      Progress.Comes d flow (Progress.start flow.size entry) s → s.queue.head? = some position →
        s.frames.getD position none = some before → flow.Allows position move →
          before.pass d flow position move = .ok g → Arrives d flow entry move.target g

namespace Progress

section Runs

variable [DecidableEq V] {d : Domain V} {R : V → V → Prop} {Q : Nat → Frame V → Prop} {flow : Flow}
  {locals : Nat} {s t u : Progress V} {frames : Frames V}

/-- One visit more. -/
theorem Comes.snoc (h : Comes d flow s t) {position : Nat} {queue : List Nat}
    (hqueue : t.queue = position :: queue)
    (hu : (t.dequeue position queue).visit d flow position = .ok u) : Comes d flow s u := by
  induction h with
  | refl s => exact .visit hqueue hu (.refl u)
  | visit hqueue' ht' _ ih => exact .visit hqueue' ht' (ih hqueue hu)

/-- Whatever visits hand on and joins keep holds of all frames in the end. -/
theorem settle_holds (hjoin : JoinKeeps d Q)
    (hmove : ∀ t position before move g, Comes d flow s t → t.Holds Q →
      t.queue.head? = some position → t.frames.getD position none = some before →
        flow.Allows position move → before.pass d flow position move = .ok g → Q move.target g)
    {visits : Nat} (hcomes : Comes d flow s t) (ht : t.Holds Q)
    (h : settle d flow visits t = .ok frames) :
    ∀ p f, frames.getD p none = some f → Q p f := by
  induction visits generalizing t with
  | zero =>
    rw [settle] at h
    split_ifs at h
    obtain rfl := Except.ok.inj h
    exact ht
  | succ visits ih =>
    rw [settle] at h
    split at h
    · obtain rfl := Except.ok.inj h
      exact ht
    · rename_i position queue hqueue
      obtain ⟨u, hu, h⟩ := bind_eq_ok.mp h
      have hhead : t.queue.head? = some position := by simp [hqueue]
      exact ih (hcomes.snoc hqueue hu) (Holds.visit (s := t.dequeue position queue) hjoin ht
        (fun before move g hbefore => hmove t position before move g hcomes ht hhead hbefore) hu) h

/-- The solver goes on to its answer from every state that it comes to. -/
theorem settle_of_comes (hR : d.JoinAbsorbs R)
    (hinside : ∀ p move, flow.Allows p move → move.target < flow.size)
    (hs : s.WellFormed flow.size locals) (hsettling : s.Settling d R flow) (hcomes : Comes d flow s t)
    {visits : Nat} (h : settle d flow visits s = .ok frames) :
    t.WellFormed flow.size locals ∧ t.Settling d R flow ∧
      ∃ left, settle d flow left t = .ok frames := by
  induction hcomes generalizing visits with
  | refl s => exact ⟨hs, hsettling, visits, h⟩
  | @visit s t u position queue hqueue ht _ ih =>
    cases visits with
    | zero =>
      rw [settle] at h
      simp [hqueue] at h
    | succ visits =>
      rw [settle, hqueue] at h
      obtain ⟨t', ht', h⟩ := bind_eq_ok.mp h
      obtain rfl := Except.ok.inj (ht.symm.trans ht')
      obtain ⟨hwf, _, hsettling'⟩ := visit_settling hR hinside hs hsettling hqueue ht
      exact ih hwf hsettling' h

/-- What a visit hands on is absorbed by the answer. -/
theorem settle_absorbs (hR : d.JoinAbsorbs R)
    (hinside : ∀ p move, flow.Allows p move → move.target < flow.size)
    (hs : s.WellFormed flow.size locals) (hsettling : s.Settling d R flow) {visits position : Nat}
    (h : settle d flow visits s = .ok frames) (hhead : s.queue.head? = some position)
    {before g : Frame V} (hbefore : s.frames.getD position none = some before) {move : Move}
    (hmove : flow.Allows position move) (hg : before.pass d flow position move = .ok g) :
    Absorbs R frames move.target g := by
  obtain ⟨queue, hqueue⟩ := List.head?_eq_some_iff.mp hhead
  cases visits with
  | zero =>
    rw [settle] at h
    simp [hqueue] at h
  | succ visits =>
    rw [settle, hqueue] at h
    obtain ⟨t, ht, h⟩ := bind_eq_ok.mp h
    obtain ⟨_, hclosed⟩ := visit_advance hR hinside (dequeue_wellFormed hs hqueue) ht
    obtain ⟨hwf, _, hsettling'⟩ := visit_settling hR hinside hs hsettling hqueue ht
    obtain ⟨g', hg', habsorbs⟩ := (hclosed before hbefore).absorbed move hmove
    obtain rfl := Except.ok.inj (hg.symm.trans hg')
    exact habsorbs.grow (settle_closed hR hinside hwf hsettling' h).1

end Runs

end Progress

/-! ## The answer -/

section Answer

variable [DecidableEq V] {d : Domain V} {R : V → V → Prop} {m : MethodSig} {body : Body}
  {frames : Frames V} {flow : Flow} {entry : Frame V}

/-- The run of the solver behind an answer. -/
theorem settle_of_analyze (h : analyze d m body = .ok frames) (hflow : Flow.ofBody body = .ok flow)
    (hentry : Frame.entry d m body.maxLocals = .ok entry) :
    0 < flow.size ∧ ∃ visits,
      Progress.settle d flow visits (Progress.start flow.size entry) = .ok frames := by
  obtain ⟨flow', hflow', h⟩ := bind_eq_ok.mp h
  obtain rfl := Except.ok.inj (hflow.symm.trans hflow')
  by_cases hsize : flow.size = 0
  · simp [hsize, throw, throwThe, MonadExceptOf.throw, bind, Except.bind] at h
  · rw [if_neg hsize] at h
    obtain ⟨entry', hentry', h⟩ := bind_eq_ok.mp h
    obtain rfl := Except.ok.inj (hentry.symm.trans hentry')
    exact ⟨Nat.pos_of_ne_zero hsize, _, h⟩

/-- Whatever is true at the start, handed on by moves and kept by joins is true of the answer. -/
theorem analyze_invariant (h : analyze d m body = .ok frames) (hflow : Flow.ofBody body = .ok flow)
    (hentry : Frame.entry d m body.maxLocals = .ok entry) {Q : Nat → Frame V → Prop}
    (hjoin : Progress.JoinKeeps d Q) (hstart : Q 0 entry)
    (hmove : ∀ position before move g, Q position before → flow.Allows position move →
      before.pass d flow position move = .ok g → Q move.target g) :
    ∀ p f, frames.getD p none = some f → Q p f := by
  obtain ⟨hpos, visits, h⟩ := settle_of_analyze h hflow hentry
  exact Progress.settle_holds hjoin
    (fun t position before move g _ ht _ hbefore => hmove position before move g
      (ht position before hbefore))
    (.refl _) (Progress.start_holds hpos hstart) h

/-- Whatever is true of all that arrives and kept by joins is true of the answer. -/
theorem analyze_of_arrives (h : analyze d m body = .ok frames) (hflow : Flow.ofBody body = .ok flow)
    (hentry : Frame.entry d m body.maxLocals = .ok entry) {Q : Nat → Frame V → Prop}
    (hjoin : Progress.JoinKeeps d Q) (hQ : ∀ p g, Arrives d flow entry p g → Q p g) :
    ∀ p f, frames.getD p none = some f → Q p f := by
  obtain ⟨hpos, visits, h⟩ := settle_of_analyze h hflow hentry
  exact Progress.settle_holds hjoin
    (fun t position before move g hcomes _ hhead hbefore hmove hg =>
      hQ _ g (.move hcomes hhead hbefore hmove hg))
    (.refl _) (Progress.start_holds hpos (hQ 0 entry .start)) h

/-- The answer absorbs all that arrives. -/
theorem Arrives.absorbed (hR : d.JoinBounds R) (h : analyze d m body = .ok frames)
    (hflow : Flow.ofBody body = .ok flow) (hentry : Frame.entry d m body.maxLocals = .ok entry)
    {p : Nat} {g : Frame V} (harrives : Arrives d flow entry p g) : Absorbs R frames p g := by
  have hinside : ∀ p move, flow.Allows p move → move.target < flow.size :=
    fun p move hmove => hmove.target_lt hflow
  obtain ⟨hpos, visits, hsettle⟩ := settle_of_analyze h hflow hentry
  cases harrives with
  | start =>
    obtain ⟨flow', entry', hflow', hentry', hclosed⟩ := analyze_closed hR h
    obtain rfl := Except.ok.inj (hentry.symm.trans hentry')
    exact hclosed.start
  | move hcomes hhead hbefore hmove hg =>
    obtain ⟨hwf, hsettling, left, hleft⟩ := Progress.settle_of_comes hR.absorbs hinside
      (Progress.start_wellFormed hpos) (Progress.start_settling hpos) hcomes hsettle
    exact Progress.settle_absorbs hR.absorbs hinside hwf hsettling hleft hhead hbefore hmove hg

/-- A local of the answer has a firm value exactly if all that arrives has it there. -/
theorem local_eq_iff (h : analyze d m body = .ok frames) (hflow : Flow.ofBody body = .ok flow)
    (hentry : Frame.entry d m body.maxLocals = .ok entry) {v : V} (hfirm : d.Firm v) {p k : Nat}
    {f : Frame V} (hf : frames.getD p none = some f) :
    f.locals[k]? = some v ↔ ∀ g, Arrives d flow entry p g → g.locals[k]? = some v := by
  constructor
  · intro hv g harrives
    -- Being `v` passes from a join to both sides.
    have hR : d.JoinBounds fun x y => x = v → y = v :=
      ⟨fun _ h => h, fun _ _ _ hxy hyz h => hyz (hxy h), fun x y h => ((hfirm x y).mp h).1,
        fun x y h => ((hfirm x y).mp h).2⟩
    obtain ⟨f', hf', hrel⟩ := harrives.absorbed hR h hflow hentry
    obtain rfl := Option.some.inj (hf.symm.trans hf')
    rw [← Array.getElem?_toList] at hv
    obtain ⟨w, hw, hvw⟩ := forall₂_getElem? hrel.locals hv
    rw [← Array.getElem?_toList, hw, hvw rfl]
  · intro harrives
    refine analyze_of_arrives h hflow hentry (Q := fun q g => q = p → g.locals[k]? = some v)
      ?_ (fun q g hg hq => harrives g (hq ▸ hg)) p f hf rfl
    intro q f g joined hf hg hjoined hq
    unfold join at hjoined
    split_ifs at hjoined
    obtain rfl := Except.ok.inj hjoined
    simp [Array.getElem?_zipWith, hf hq, hg hq, (hfirm v v).mpr ⟨rfl, rfl⟩]

end Answer

end Frame

/-! ## The answer is a fixpoint -/

/-- Among values with the property `P`, the join with a value that is absorbed changes nothing. -/
structure Domain.Absorptive (d : Domain V) (P : V → Prop) (R : V → V → Prop) : Prop where
  absorbs : d.JoinAbsorbs R
  keeps : ∀ v w, P v → P w → P (d.join v w)
  unchanged : ∀ v w, P v → P w → R v w → d.join v w = v

/-- Joins do not depend on order or repetition. -/
structure Domain.Semilattice (d : Domain V) : Prop where
  idem : ∀ v, d.join v v = v
  comm : ∀ v w, d.join v w = d.join w v
  assoc : ∀ u v w, d.join (d.join u v) w = d.join u (d.join v w)

/-- The join with the second value changes nothing. -/
def Domain.Keeps (d : Domain V) (v w : V) : Prop := d.join v w = v

namespace Domain.Semilattice

variable {d : Domain V}

theorem trans (hd : d.Semilattice) {u v w : V} (h : d.Keeps u v) (h' : d.Keeps v w) : d.Keeps u w := by
  unfold Keeps at h h' ⊢
  rw [← h, hd.assoc, h']

theorem antisymm (hd : d.Semilattice) {v w : V} (h : d.Keeps v w) (h' : d.Keeps w v) : v = w := by
  rw [← h, hd.comm, h']

theorem absorptive (hd : d.Semilattice) : d.Absorptive (fun _ => True) d.Keeps where
  absorbs := by
    constructor
    case refl => exact hd.idem
    case left =>
      intro v w u hu
      show d.join (d.join v w) u = d.join v w
      rw [hd.assoc, hd.comm w u, ← hd.assoc, hu]
    case right =>
      intro v w
      show d.join (d.join v w) w = d.join v w
      rw [hd.assoc, hd.idem]
  keeps _ _ _ _ := trivial
  unchanged _ _ _ _ h := h

end Domain.Semilattice

namespace Frame

/-- There is a frame at the position, and merging the given one into it changes nothing. -/
def Unmoved [DecidableEq V] (d : Domain V) (frames : Frames V) (position : Nat) (f : Frame V) : Prop :=
  ∃ g, frames.getD position none = some g ∧ g.join d f = .ok g

/-- The instruction can be executed. Neither what it leaves at a successor nor, if it is a real one, what an
exception leaves at a handler changes the frame there. -/
structure StableAt [DecidableEq V] (d : Domain V) (flow : Flow) (frames : Frames V) (position : Nat)
    (before : Frame V) : Prop where
  continues : ∃ after targets, before.execute d (flow.idAt position) (flow.insnAt position) = .ok after ∧
    flow.successors position = .ok targets ∧ ∀ target ∈ targets, Unmoved d frames target after
  raises : (flow.insnAt position).isReal = true → ∀ edge ∈ flow.handlersAt position,
    Unmoved d frames edge.handler ⟨before.locals, [d.exception edge.catchType]⟩

/-- Nothing that paths hand on changes a frame. -/
structure Stable [DecidableEq V] (d : Domain V) (flow : Flow) (entry : Frame V) (frames : Frames V) :
    Prop where
  start : Unmoved d frames 0 entry
  stableAt : ∀ position before, frames.getD position none = some before →
    StableAt d flow frames position before

section Stable

variable [DecidableEq V] {d : Domain V} {P : V → Prop} {R : V → V → Prop} {flow : Flow} {frames : Frames V}

omit [DecidableEq V] in
theorem zipWith_join_eq (hd : d.Absorptive P R) {vs ws : List V} (h : List.Forall₂ R vs ws)
    (hvs : ∀ v ∈ vs, P v) (hws : ∀ w ∈ ws, P w) : List.zipWith d.join vs ws = vs := by
  induction h with
  | nil => rfl
  | cons hhead _ ih =>
    rw [List.forall_mem_cons] at hvs hws
    rw [List.zipWith_cons_cons, hd.unchanged _ _ hvs.1 hws.1 hhead, ih hvs.2 hws.2]

omit [DecidableEq V] in
theorem Rel.join_eq (hd : d.Absorptive P R) {f g : Frame V} (h : g.Rel R f) (hg : g.All P) (hf : f.All P) :
    g.join d f = .ok g := by
  rw [all_iff] at hf hg
  have hlocals := zipWith_join_eq hd h.locals (fun v hv => hg.1 v (Array.mem_toList_iff.mp hv))
    (fun v hv => hf.1 v (Array.mem_toList_iff.mp hv))
  rw [← Array.toList_zipWith, Array.toList_inj] at hlocals
  rw [Frame.join, if_pos h.stack_length, hlocals, zipWith_join_eq hd h.stack hg.2 hf.2]

theorem Absorbs.unmoved (hd : d.Absorptive P R) (hall : ∀ p f, frames.getD p none = some f → f.All P)
    {position : Nat} {f : Frame V} (hf : f.All P) (h : Absorbs R frames position f) :
    Unmoved d frames position f := by
  obtain ⟨g, hg, hrel⟩ := h
  exact ⟨g, hg, hrel.join_eq hd (hall position g hg) hf⟩

theorem ClosedAt.stableAt (hd : d.Absorptive P R) (hkeeps : KeepsAll d flow P)
    (hall : ∀ p f, frames.getD p none = some f → f.All P) {position : Nat}
    (hposition : position < flow.size) {before : Frame V} (hbefore : before.All P)
    (h : ClosedAt d R flow frames position before) :
    StableAt d flow frames position before := by
  obtain ⟨after, hafter⟩ := h.executes
  obtain ⟨targets, htargets⟩ := h.continues
  refine ⟨⟨after, targets, hafter, htargets, fun target htarget => ?_⟩, fun hreal edge hedge => ?_⟩
  · obtain ⟨g, hg, habsorbs⟩ := h.absorbed (.next target) ⟨targets, htargets, htarget⟩
    obtain rfl := Except.ok.inj (hafter.symm.trans hg)
    exact habsorbs.unmoved hd hall (hkeeps.executes position hposition before after hbefore hafter)
  · obtain ⟨g, hg, habsorbs⟩ := h.absorbed (.raise edge) ⟨hreal, hedge⟩
    obtain rfl := Except.ok.inj hg
    exact habsorbs.unmoved hd hall (hbefore.caught (hkeeps.raises position edge hedge))

/-- An analysis that succeeds ends with a fixpoint. -/
theorem analyze_stable (hd : d.Absorptive P R) {m : MethodSig} {body : Body}
    (hentry : ∀ entry, Frame.entry d m body.maxLocals = .ok entry → entry.All P)
    (hkeeps : ∀ flow, Flow.ofBody body = .ok flow → KeepsAll d flow P)
    (h : analyze d m body = .ok frames) :
    ∃ flow entry, Flow.ofBody body = .ok flow ∧ Frame.entry d m body.maxLocals = .ok entry ∧
      Stable d flow entry frames := by
  obtain ⟨flow, entry, hflow, hentry', hclosed⟩ := analyze_absorbs hd.absorbs h
  obtain ⟨hpos, _⟩ := settle_of_analyze h hflow hentry'
  have hinside : ∀ p f, frames.getD p none = some f → p < flow.size ∧ f.All P :=
    analyze_invariant h hflow hentry' (Q := fun p f => p < flow.size ∧ f.All P)
      (fun _ _ _ _ hf hg hjoined => ⟨hf.1, hf.2.join hd.keeps hg.2 hjoined⟩)
      ⟨hpos, hentry entry hentry'⟩ fun _ _ _ _ hf hmove hg =>
        ⟨hmove.target_lt hflow, (hkeeps flow hflow).pass hf.1 hf.2 hmove hg⟩
  have hall : ∀ p f, frames.getD p none = some f → f.All P := fun p f hf => (hinside p f hf).2
  exact ⟨flow, entry, hflow, hentry', hclosed.start.unmoved hd hall (hentry entry hentry'),
    fun position before hbefore => (hclosed.closedAt position before hbefore).stableAt hd
      (hkeeps flow hflow) hall (hinside position before hbefore).1 (hall position before hbefore)⟩

end Stable

end Frame

end DirectCall
