import DirectCall.Proofs.Frame.Step
import Mathlib.Data.List.Zip

/-!
# The answer of the analysis is closed

When the analysis succeeds, every reached position can be executed, and what each move hands on is
absorbed by the frame at its target (`analyze_absorbs`). The invariant of the solver is that a
position is queued or closed; frames only ever grow, which keeps closed positions closed.

The relation in which frames absorb others is a parameter: a join has to absorb what either side absorbs
(`Domain.JoinAbsorbs`). In an order it does so if it is an upper bound (`Domain.JoinBounds`); but the
relation need not be transitive.
-/

namespace DirectCall

variable {V : Type}

/-- In the order `R` the join of a domain bounds both sides; `R x y` says that `x` absorbs `y`. -/
structure Domain.JoinBounds (d : Domain V) (R : V → V → Prop) : Prop where
  refl : ∀ x, R x x
  trans : ∀ x y z, R x y → R y z → R x z
  left : ∀ x y, R (d.join x y) x
  right : ∀ x y, R (d.join x y) y

/-- In the relation `R` the join of a domain absorbs its right side and all that its left side absorbs;
`R x y` says that `x` absorbs `y`. -/
structure Domain.JoinAbsorbs (d : Domain V) (R : V → V → Prop) : Prop where
  refl : ∀ x, R x x
  left : ∀ x y v, R x v → R (d.join x y) v
  right : ∀ x y, R (d.join x y) y

theorem Domain.JoinBounds.absorbs {d : Domain V} {R : V → V → Prop} (h : d.JoinBounds R) :
    d.JoinAbsorbs R :=
  ⟨h.refl, fun x y _ hv => h.trans _ _ _ (h.left x y) hv, h.right⟩

/-- The first value absorbs all that the second one absorbs. -/
def Outgrows (R : V → V → Prop) (x y : V) : Prop := ∀ v, R y v → R x v

namespace Frame

theorem rel_join {d : Domain V} {R : V → V → Prop} (hR : d.JoinAbsorbs R) {f g joined : Frame V}
    (hlocals : f.locals.size = g.locals.size) (h : f.join d g = .ok joined) :
    joined.Rel (Outgrows R) f ∧ joined.Rel R g ∧ joined.locals.size = f.locals.size := by
  have hzip : ∀ xs ys : List V, xs.length = ys.length →
      List.Forall₂ (Outgrows R) (List.zipWith d.join xs ys) xs ∧
        List.Forall₂ R (List.zipWith d.join xs ys) ys := by
    intro xs ys hlength
    induction xs generalizing ys with
    | nil =>
      rw [List.length_nil, eq_comm, List.length_eq_zero_iff] at hlength
      subst hlength
      exact ⟨.nil, .nil⟩
    | cons x xs ih =>
      cases ys with
      | nil => simp at hlength
      | cons y ys =>
        have hrest := ih ys (by simpa using hlength)
        exact ⟨.cons (hR.left x y) hrest.1, .cons (hR.right x y) hrest.2⟩
  unfold join at h
  split_ifs at h with hstack
  simp only [Except.ok.injEq] at h
  subst h
  have hls := hzip f.locals.toList g.locals.toList (by simpa using hlocals)
  have hss := hzip _ _ hstack
  refine ⟨⟨?_, hss.1⟩, ⟨?_, hss.2⟩, ?_⟩
  · rw [Array.toList_zipWith]
    exact hls.1
  · rw [Array.toList_zipWith]
    exact hls.2
  · simp [hlocals]

theorem Rel.outgrow {R : V → V → Prop} {f g h : Frame V} (hfg : f.Rel (Outgrows R) g) (hgh : g.Rel R h) :
    f.Rel R h :=
  hfg.trans (fun _ _ _ hxy hyv => hxy _ hyv) hgh

/-- The frame at a position absorbs another one. -/
def Absorbs (R : V → V → Prop) (frames : Frames V) (position : Nat) (f : Frame V) : Prop :=
  ∃ g, frames.getD position none = some g ∧ g.Rel R f

/-- A reached position can be executed, and whatever it hands on is absorbed. -/
structure ClosedAt [DecidableEq V] (d : Domain V) (R : V → V → Prop) (flow : Flow) (frames : Frames V)
    (position : Nat) (f : Frame V) : Prop where
  executes : ∃ after, f.execute d (flow.idAt position) (flow.insnAt position) = .ok after
  continues : ∃ targets, flow.successors position = .ok targets
  absorbed : ∀ move, flow.Allows position move →
    ∃ g, f.pass d flow position move = .ok g ∧ Absorbs R frames move.target g

/-- Every frame stays, or is replaced by one that it is related to. -/
def Grows (R : V → V → Prop) (frames grown : Frames V) : Prop :=
  ∀ position f, frames.getD position none = some f → Absorbs R grown position f

section Growth

variable {d : Domain V} {R : V → V → Prop} {flow : Flow} {frames grown : Frames V}

theorem Absorbs.grow (hgrow : Grows (Outgrows R) frames grown) {position : Nat} {f : Frame V}
    (h : Absorbs R frames position f) : Absorbs R grown position f := by
  obtain ⟨g, hg, hgf⟩ := h
  obtain ⟨g', hg', hrel⟩ := hgrow position g hg
  exact ⟨g', hg', hrel.outgrow hgf⟩

theorem Grows.refl (R : V → V → Prop) (frames : Frames V) : Grows (Outgrows R) frames frames :=
  fun _ f hf => ⟨f, hf, rel_refl (fun _ _ => id) f⟩

theorem Grows.trans {last : Frames V} (h : Grows (Outgrows R) frames grown)
    (h' : Grows (Outgrows R) grown last) : Grows (Outgrows R) frames last := by
  intro position f hf
  obtain ⟨g, hg, hgf⟩ := h position f hf
  obtain ⟨g', hg', hrel⟩ := h' position g hg
  exact ⟨g', hg', hrel.trans (fun _ _ _ hxy hyz v hv => hxy v (hyz v hv)) hgf⟩

theorem ClosedAt.grow [DecidableEq V] (hgrow : Grows (Outgrows R) frames grown) {position : Nat}
    {f : Frame V} (h : ClosedAt d R flow frames position f) :
    ClosedAt d R flow grown position f := by
  refine ⟨h.executes, h.continues, fun move hmove => ?_⟩
  obtain ⟨g, hg, habsorbs⟩ := h.absorbed move hmove
  exact ⟨g, hg, habsorbs.grow hgrow⟩

end Growth

namespace Progress

/-! ## The queue -/

/-- Sizes agree, and a marked position is queued. -/
structure WellFormed (size locals : Nat) (s : Progress V) : Prop where
  frames : s.frames.size = size
  queued : s.queued.size = size
  marked : ∀ position, s.queued.getD position false = true → position ∈ s.queue
  locals : ∀ position f, s.frames.getD position none = some f → f.locals.size = locals

/-- From one state of the analysis to a later one of the same visit. -/
structure Advance (R : V → V → Prop) (size locals : Nat) (s t : Progress V) : Prop where
  wellFormed : t.WellFormed size locals
  grows : Grows (Outgrows R) s.frames t.frames
  queue : ∀ position ∈ s.queue, position ∈ t.queue
  changed : ∀ position,
    t.frames.getD position none = s.frames.getD position none ∨ position ∈ t.queue

section Flows

variable {d : Domain V} {R : V → V → Prop} {size locals : Nat} {s t : Progress V}

theorem Advance.refl (hs : s.WellFormed size locals) :
    Advance R size locals s s :=
  ⟨hs, .refl R s.frames, fun _ h => h, fun _ => .inl rfl⟩

theorem Advance.trans {u : Progress V} (h : Advance R size locals s t)
    (h' : Advance R size locals t u) : Advance R size locals s u := by
  refine ⟨h'.wellFormed, h.grows.trans h'.grows, fun p hp => h'.queue p (h.queue p hp),
    fun p => ?_⟩
  rcases h'.changed p with heq | hmem
  · rcases h.changed p with heq' | hmem
    · exact .inl (heq.trans heq')
    · exact .inr (h'.queue p hmem)
  · exact .inr hmem

theorem enqueue_frames (s : Progress V) (position : Nat) :
    (s.enqueue position).frames = s.frames := by
  unfold enqueue
  split_ifs <;> rfl

theorem mem_enqueue {s : Progress V} {position p : Nat} (h : p ∈ s.queue) :
    p ∈ (s.enqueue position).queue := by
  unfold enqueue
  split_ifs
  · exact h
  · exact List.mem_cons_of_mem _ h

theorem enqueue_wellFormed (hs : s.WellFormed size locals) (position : Nat) :
    (s.enqueue position).WellFormed size locals ∧ position ∈ (s.enqueue position).queue := by
  unfold enqueue
  split_ifs with hmarked
  · exact ⟨hs, hs.marked position hmarked⟩
  · refine ⟨⟨hs.frames, by simpa using hs.queued, fun p hp => ?_, hs.locals⟩, by simp⟩
    simp only [Array.getD_eq_getD_getElem?, Array.getElem?_setIfInBounds] at hp
    split_ifs at hp with heq
    · simp [heq]
    · simp at hp
    · have := hs.marked p (by simpa using hp)
      simp [this]

theorem getD_set {frames : Frames V} {target p : Nat} {f : Frame V}
    (htarget : target < frames.size) :
    (frames.setIfInBounds target (some f)).getD p none =
      if target = p then some f else frames.getD p none := by
  simp only [Array.getD_eq_getD_getElem?, Array.getElem?_setIfInBounds]
  by_cases heq : target = p
  · simp [heq, heq ▸ htarget]
  · simp [heq]

/-- Raising the frame at one position and queueing it. -/
theorem advance_raise (hs : s.WellFormed size locals) {target : Nat}
    {raised : Frame V} (htarget : target < size) (hlocals : raised.locals.size = locals)
    (habove : ∀ f, s.frames.getD target none = some f → raised.Rel (Outgrows R) f) :
    Advance R size locals s
      ({ s with frames := s.frames.setIfInBounds target (some raised) }.enqueue target) := by
  have hget : ∀ p, (s.frames.setIfInBounds target (some raised)).getD p none =
      if target = p then some raised else s.frames.getD p none := fun p =>
    getD_set (hs.frames ▸ htarget)
  have hwf : WellFormed size locals
      { s with frames := s.frames.setIfInBounds target (some raised) } := by
    refine ⟨by simpa using hs.frames, hs.queued, hs.marked, fun p f hf => ?_⟩
    rw [hget] at hf
    split_ifs at hf with heq
    · rw [← Option.some.inj hf, hlocals]
    · exact hs.locals p f hf
  obtain ⟨hwf', hmem⟩ := enqueue_wellFormed hwf target
  refine ⟨hwf', fun p f hf => ?_, fun p hp => mem_enqueue hp, fun p => ?_⟩
  · rw [Absorbs, enqueue_frames, hget]
    by_cases heq : target = p
    · exact ⟨raised, by simp [heq], habove f (heq ▸ hf)⟩
    · exact ⟨f, by simp [heq, hf], rel_refl (fun _ _ => id) f⟩
  · rw [enqueue_frames, hget]
    by_cases heq : target = p
    · exact .inr (heq ▸ hmem)
    · exact .inl (by simp [heq])

variable [DecidableEq V]

theorem flowInto_advance (hR : d.JoinAbsorbs R) (hs : s.WellFormed size locals) {target : Nat}
    {f : Frame V} (htarget : target < size) (hlocals : f.locals.size = locals)
    (h : s.flowInto d target f = .ok t) :
    Advance R size locals s t ∧ Absorbs R t.frames target f := by
  have hsize : target < s.frames.size := hs.frames ▸ htarget
  unfold flowInto at h
  split at h
  · rename_i hnone
    simp only [Except.ok.injEq] at h
    subst h
    refine ⟨advance_raise hs htarget hlocals (by simp [hnone]), f, ?_, rel_refl hR.refl f⟩
    rw [enqueue_frames]
    simp [getD_set hsize]
  · rename_i mine hmine
    obtain ⟨joined, hjoin, h⟩ := bind_eq_ok.mp h
    have hmineLocals := hs.locals target mine hmine
    obtain ⟨habove, hbelow, hjoined⟩ := rel_join hR (hmineLocals.trans hlocals.symm) hjoin
    split_ifs at h with heq
    · simp only [pure, Except.pure, Except.ok.injEq] at h
      subst h
      exact ⟨.refl hs, mine, hmine, heq ▸ hbelow⟩
    · simp only [pure, Except.pure, Except.ok.injEq] at h
      subst h
      refine ⟨advance_raise hs htarget (hjoined.trans hmineLocals) ?_, joined, ?_, hbelow⟩
      · intro g hg
        rw [hmine, Option.some.injEq] at hg
        exact hg ▸ habove
      · rw [enqueue_frames]
        simp [getD_set hsize]

theorem flowIntoAll_advance (hR : d.JoinAbsorbs R) (hs : s.WellFormed size locals)
    {targets : List Nat} {f : Frame V} (htargets : ∀ target ∈ targets, target < size)
    (hlocals : f.locals.size = locals) (h : s.flowIntoAll d f targets = .ok t) :
    Advance R size locals s t ∧ ∀ target ∈ targets, Absorbs R t.frames target f := by
  induction targets generalizing s with
  | nil =>
    simp only [flowIntoAll, Except.ok.injEq] at h
    subst h
    exact ⟨.refl hs, by simp⟩
  | cons target rest ih =>
    obtain ⟨u, hu, h⟩ := bind_eq_ok.mp h
    rw [during_eq_ok] at hu
    obtain ⟨hadvance, habsorbs⟩ := flowInto_advance hR hs (htargets target (by simp)) hlocals hu
    obtain ⟨hadvance', habsorbs'⟩ := ih hadvance.wellFormed
      (fun q hq => htargets q (List.mem_cons_of_mem _ hq)) h
    refine ⟨hadvance.trans hadvance', fun q hq => ?_⟩
    rcases List.mem_cons.mp hq with rfl | hq
    · exact habsorbs.grow hadvance'.grows
    · exact habsorbs' q hq

theorem flowIntoHandlers_advance (hR : d.JoinAbsorbs R) (hs : s.WellFormed size locals)
    {edges : List HandlerEdge} {f : Frame V} (hedges : ∀ edge ∈ edges, edge.handler < size)
    (hlocals : f.locals.size = locals) (h : s.flowIntoHandlers d f edges = .ok t) :
    Advance R size locals s t ∧
      ∀ edge ∈ edges, Absorbs R t.frames edge.handler (f.caught d edge.catchType) := by
  induction edges generalizing s with
  | nil =>
    simp only [flowIntoHandlers, Except.ok.injEq] at h
    subst h
    exact ⟨.refl hs, by simp⟩
  | cons edge rest ih =>
    obtain ⟨u, hu, h⟩ := bind_eq_ok.mp h
    rw [during_eq_ok] at hu
    obtain ⟨hadvance, habsorbs⟩ := flowInto_advance hR hs (hedges edge (by simp))
      (f := f.caught d edge.catchType) hlocals hu
    obtain ⟨hadvance', habsorbs'⟩ := ih hadvance.wellFormed
      (fun e he => hedges e (List.mem_cons_of_mem _ he)) h
    refine ⟨hadvance.trans hadvance', fun e he => ?_⟩
    rcases List.mem_cons.mp he with rfl | he
    · exact habsorbs.grow hadvance'.grows
    · exact habsorbs' e he

end Flows

/-! ## Visits -/

section Visits

variable [DecidableEq V] {d : Domain V} {R : V → V → Prop} {flow : Flow} {locals : Nat}
  {s t : Progress V}

/-- Every reached position is queued or closed. -/
def Settling (d : Domain V) (R : V → V → Prop) (flow : Flow) (s : Progress V) : Prop :=
  ∀ position f, s.frames.getD position none = some f →
    position ∈ s.queue ∨ ClosedAt d R flow s.frames position f

/-- What a visit hands on is absorbed. -/
theorem visit_advance (hR : d.JoinAbsorbs R)
    (hinside : ∀ p move, flow.Allows p move → move.target < flow.size)
    (hs : s.WellFormed flow.size locals) {position : Nat} (h : s.visit d flow position = .ok t) :
    Advance R flow.size locals s t ∧
      ∀ f, s.frames.getD position none = some f → ClosedAt d R flow t.frames position f := by
  unfold visit at h
  split at h
  · rename_i hnone
    simp only [Except.ok.injEq] at h
    subst h
    exact ⟨.refl hs, by simp [hnone]⟩
  · rename_i before hbefore
    obtain ⟨after, hafter, h⟩ := bind_eq_ok.mp h
    rw [during_eq_ok] at hafter
    obtain ⟨targets, htargets, h⟩ := bind_eq_ok.mp h
    obtain ⟨u, hu, h⟩ := bind_eq_ok.mp h
    have hlocals := hs.locals position before hbefore
    obtain ⟨hadvance, hnext⟩ := flowIntoAll_advance hR hs
      (fun q hq => hinside position (.next q) ⟨targets, htargets, hq⟩)
      ((execute_locals_size hafter).trans hlocals) hu
    -- Handlers only see the frames of real instructions, as `Allows` has it.
    have hhandlers : Advance R flow.size locals u t ∧
        ((flow.insnAt position).isReal = true → ∀ edge ∈ flow.handlersAt position,
          Absorbs R t.frames edge.handler (before.caught d edge.catchType)) := by
      split_ifs at h with hreal
      · have := flowIntoHandlers_advance hR hadvance.wellFormed
          (fun edge hedge => hinside position (.raise edge) ⟨hreal, hedge⟩) hlocals h
        exact ⟨this.1, fun _ => this.2⟩
      · simp only [pure, Except.pure, Except.ok.injEq] at h
        exact ⟨h ▸ .refl hadvance.wellFormed, fun hreal' => absurd hreal' hreal⟩
    obtain ⟨hadvance', hraise⟩ := hhandlers
    refine ⟨hadvance.trans hadvance', fun f hf => ?_⟩
    rw [hbefore, Option.some.injEq] at hf
    subst hf
    refine ⟨⟨after, hafter⟩, ⟨targets, htargets⟩, fun move hmove => ?_⟩
    cases move with
    | next q =>
      obtain ⟨targets', htargets', hq⟩ := hmove
      rw [htargets, Except.ok.injEq] at htargets'
      exact ⟨after, hafter, (hnext q (htargets' ▸ hq)).grow hadvance'.grows⟩
    | raise edge => exact ⟨_, rfl, hraise hmove.1 edge hmove.2⟩

/-- The state with the first position taken off the queue. -/
def dequeue (s : Progress V) (position : Nat) (queue : List Nat) : Progress V :=
  { s with queue := queue, queued := s.queued.setIfInBounds position false }

omit [DecidableEq V] in
theorem dequeue_wellFormed {size : Nat} (hs : s.WellFormed size locals) {position : Nat}
    {queue : List Nat} (hqueue : s.queue = position :: queue) :
    (s.dequeue position queue).WellFormed size locals := by
  refine ⟨hs.frames, by simpa [dequeue] using hs.queued, fun p hp => ?_, hs.locals⟩
  simp only [dequeue, Array.getD_eq_getD_getElem?, Array.getElem?_setIfInBounds] at hp
  split_ifs at hp with heq
  · simp at hp
  · simp at hp
  · have hmem := hs.marked p (by simpa using hp)
    rw [hqueue, List.mem_cons] at hmem
    rcases hmem with rfl | hmem
    · exact absurd rfl heq
    · exact hmem

/-- Taking the first position off the queue and visiting it. -/
theorem visit_settling (hR : d.JoinAbsorbs R)
    (hinside : ∀ p move, flow.Allows p move → move.target < flow.size)
    (hs : s.WellFormed flow.size locals) (hsettling : s.Settling d R flow) {position : Nat}
    {queue : List Nat} (hqueue : s.queue = position :: queue)
    (h : visit d flow position (s.dequeue position queue) = .ok t) :
    t.WellFormed flow.size locals ∧ Grows (Outgrows R) s.frames t.frames ∧ t.Settling d R flow := by
  obtain ⟨hadvance, hclosed⟩ := visit_advance hR hinside (dequeue_wellFormed hs hqueue) h
  refine ⟨hadvance.wellFormed, hadvance.grows, fun p f hf => ?_⟩
  rcases hadvance.changed p with hsame | hmem
  · rw [hsame] at hf
    by_cases hp : p = position
    · exact .inr (hp ▸ hclosed f (hp ▸ hf))
    · rcases hsettling p f hf with hmem | hclosedAt
      · rw [hqueue, List.mem_cons] at hmem
        exact .inl (hadvance.queue p (hmem.resolve_left hp))
      · exact .inr (hclosedAt.grow hadvance.grows)
  · exact .inl hmem

theorem settled_closed (hsettling : s.Settling d R flow)
    (hempty : s.queue = []) : Grows (Outgrows R) s.frames s.frames ∧
      ∀ position f, s.frames.getD position none = some f →
        ClosedAt d R flow s.frames position f := by
  refine ⟨.refl R s.frames, fun p f hf => ?_⟩
  rcases hsettling p f hf with hmem | hclosed
  · simp [hempty] at hmem
  · exact hclosed

theorem settle_closed (hR : d.JoinAbsorbs R)
    (hinside : ∀ p move, flow.Allows p move → move.target < flow.size) {visits : Nat}
    {frames : Frames V} (hs : s.WellFormed flow.size locals) (hsettling : s.Settling d R flow)
    (h : settle d flow visits s = .ok frames) :
    Grows (Outgrows R) s.frames frames ∧
      ∀ position f, frames.getD position none = some f → ClosedAt d R flow frames position f := by
  induction visits generalizing s with
  | zero =>
    rw [settle] at h
    split_ifs at h with hempty
    simp only [Except.ok.injEq] at h
    exact h ▸ settled_closed hsettling (by simpa using hempty)
  | succ visits ih =>
    rw [settle] at h
    split at h
    · rename_i hempty
      simp only [Except.ok.injEq] at h
      exact h ▸ settled_closed hsettling hempty
    · rename_i position queue hqueue
      obtain ⟨t, ht, h⟩ := bind_eq_ok.mp h
      obtain ⟨hwf, hgrows, hsettling'⟩ := visit_settling hR hinside hs hsettling hqueue ht
      obtain ⟨hgrows', hclosed⟩ := ih hwf hsettling' h
      exact ⟨hgrows.trans hgrows', hclosed⟩

omit [DecidableEq V] in
theorem start_wellFormed {size : Nat} {entry : Frame V} (hsize : 0 < size) :
    (start size entry).WellFormed size entry.locals.size := by
  refine ⟨by simp [start], by simp [start], fun p hp => ?_, fun p f hf => ?_⟩
  · simp only [start, Array.getD_eq_getD_getElem?, Array.getElem?_setIfInBounds] at hp
    split_ifs at hp with heq
    · simp [start, heq]
    · simp at hp
    · simp only [Array.getElem?_replicate] at hp
      split_ifs at hp <;> simp at hp
  · rw [start, getD_set (by simpa using hsize)] at hf
    split_ifs at hf with heq
    · rw [Option.some.inj hf]
    · simp only [Array.getD_eq_getD_getElem?, Array.getElem?_replicate] at hf
      split_ifs at hf <;> simp at hf

theorem start_settling {d : Domain V} {R : V → V → Prop} {flow : Flow} {size : Nat}
    {entry : Frame V} (hsize : 0 < size) : (start size entry).Settling d R flow := by
  intro p f hf
  rw [start, getD_set (by simpa using hsize)] at hf
  split_ifs at hf with heq
  · exact .inl (by simp [start, heq])
  · simp only [Array.getD_eq_getD_getElem?, Array.getElem?_replicate] at hf
    split_ifs at hf <;> simp at hf

end Visits

end Progress

/-- Frames that say of every path what it can hold, as far as the domain goes. -/
structure Closed [DecidableEq V] (d : Domain V) (R : V → V → Prop) (flow : Flow) (entry : Frame V)
    (frames : Frames V) : Prop where
  start : Absorbs R frames 0 entry
  closedAt : ∀ position f, frames.getD position none = some f →
    ClosedAt d R flow frames position f

/-- An analysis that succeeds ends with closed frames. -/
theorem analyze_absorbs [DecidableEq V] {d : Domain V} {R : V → V → Prop} (hR : d.JoinAbsorbs R)
    {m : MethodSig} {body : Body} {frames : Frames V} (h : analyze d m body = .ok frames) :
    ∃ flow entry, Flow.ofBody body = .ok flow ∧ Frame.entry d m body.maxLocals = .ok entry ∧
      Closed d R flow entry frames := by
  obtain ⟨flow, hflow, h⟩ := bind_eq_ok.mp h
  by_cases hsize : flow.size = 0
  · simp [hsize, throw, throwThe, MonadExceptOf.throw, bind, Except.bind] at h
  · rw [if_neg hsize] at h
    obtain ⟨entry, hentry, h⟩ := bind_eq_ok.mp h
    have hpos : 0 < flow.size := Nat.pos_of_ne_zero hsize
    obtain ⟨hgrows, hclosed⟩ := Progress.settle_closed hR
      (fun p move hmove => hmove.target_lt hflow) (Progress.start_wellFormed hpos)
      (Progress.start_settling hpos) h
    refine ⟨flow, entry, hflow, hentry, .grow hgrows ⟨entry, ?_, rel_refl hR.refl entry⟩, hclosed⟩
    rw [Progress.start, Progress.getD_set (by simpa using hpos)]
    simp

/-- In an order in which joins are upper bounds. -/
theorem analyze_closed [DecidableEq V] {d : Domain V} {R : V → V → Prop} (hR : d.JoinBounds R)
    {m : MethodSig} {body : Body} {frames : Frames V} (h : analyze d m body = .ok frames) :
    ∃ flow entry, Flow.ofBody body = .ok flow ∧ Frame.entry d m body.maxLocals = .ok entry ∧
      Closed d R flow entry frames :=
  analyze_absorbs hR.absorbs h

end Frame

end DirectCall
