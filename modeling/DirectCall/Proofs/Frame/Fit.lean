import DirectCall.Proofs.Frame.Terminate

/-!
# When the analysis succeeds

The analysis can only fail where an instruction does not find its operands or locals, where control
has nowhere to go on to, or where frames of different heights meet. A body fits if none of this
happens in any state that the analysis comes to; exactly then the analysis has an answer
(`analyze_ok_iff`).
-/

namespace DirectCall.Frame

variable {V : Type}

namespace Progress

/-- Height of the stack at each position that was reached. -/
def heights (frames : Frames V) (position : Nat) : Option Nat :=
  (frames.getD position none).map (·.stack.length)

/-- Stacks arrive at positions one after another; each is as high as the one that is there by then. -/
def Meet : (Nat → Option Nat) → List (Nat × Nat) → Prop
  | _, [] => True
  | heights, (position, height) :: rest =>
    (∀ there, heights position = some there → there = height) ∧
      Meet (Function.update heights position (some height)) rest

/-- The heights after stacks have arrived. -/
def heightsAfter (heights : Nat → Option Nat) (arrivals : List (Nat × Nat)) : Nat → Option Nat :=
  arrivals.foldl (fun heights arrival => Function.update heights arrival.1 (some arrival.2)) heights

/-- Heights of the stacks that a position hands on: to its successors, then to its handlers. -/
def arriving (flow : Flow) (position height : Nat) (targets : List Nat) : List (Nat × Nat) :=
  targets.map (·, height) ++
    if (flow.insnAt position).isReal then
      (flow.handlersAt position).map fun edge => (edge.handler, 1)
    else []

/-- The instruction finds its operands and locals, control can go on, and all stacks that meet are of
the same height. -/
def Proceeds [DecidableEq V] (d : Domain V) (flow : Flow) (frames : Frames V) (position : Nat)
    (before : Frame V) : Prop :=
  ∃ after targets, before.execute d (flow.idAt position) (flow.insnAt position) = .ok after ∧
    flow.successors position = .ok targets ∧
    Meet (heights frames) (arriving flow position after.stack.length targets)

/-- Visits lead from one state to another. -/
inductive Comes [DecidableEq V] (d : Domain V) (flow : Flow) : Progress V → Progress V → Prop where
  | refl (s : Progress V) : Comes d flow s s
  | visit {s t u : Progress V} {position : Nat} {queue : List Nat} :
      s.queue = position :: queue → visit d flow position (s.dequeue position queue) = .ok t →
        Comes d flow t u → Comes d flow s u

/-- The position that is visited next proceeds, if it was reached. -/
def CanGoOn [DecidableEq V] (d : Domain V) (flow : Flow) (s : Progress V) : Prop :=
  ∀ position before, s.queue.head? = some position →
    s.frames.getD position none = some before → Proceeds d flow s.frames position before

theorem Meet.append {heights : Nat → Option Nat} {first second : List (Nat × Nat)} :
    Meet heights (first ++ second) ↔
      Meet heights first ∧ Meet (heightsAfter heights first) second := by
  induction first generalizing heights with
  | nil => simp [Meet, heightsAfter]
  | cons arrival rest ih =>
    rw [List.cons_append, Meet, Meet, ih, heightsAfter, heightsAfter, List.foldl_cons, and_assoc]

section Visit

variable [DecidableEq V] {d : Domain V} {size locals : Nat} {s t : Progress V}

omit [DecidableEq V] in
theorem heights_set {frames : Frames V} {target : Nat} (f : Frame V) (htarget : target < frames.size) :
    heights (frames.setIfInBounds target (some f)) =
      Function.update (heights frames) target (some f.stack.length) := by
  funext p
  rw [heights, getD_set htarget, Function.update_apply]
  by_cases heq : target = p
  · rw [if_pos heq, if_pos heq.symm]
    rfl
  · rw [if_neg heq, if_neg (Ne.symm heq)]
    rfl

theorem flowInto_heights {target : Nat} {f : Frame V} (htarget : target < s.frames.size)
    (h : s.flowInto d target f = .ok t) :
    heights t.frames = Function.update (heights s.frames) target (some f.stack.length) := by
  unfold flowInto at h
  split at h
  · simp only [Except.ok.injEq] at h
    rw [← h, enqueue_frames, heights_set f htarget]
  · rename_i mine hmine
    obtain ⟨joined, hjoin, h⟩ := bind_eq_ok.mp h
    have hmineHeight : mine.stack.length = f.stack.length := by
      by_contra hne
      simp [join, hne] at hjoin
    split_ifs at h
    · simp only [pure, Except.pure, Except.ok.injEq] at h
      rw [← h, eq_comm, Function.update_eq_self_iff, heights, hmine, Option.map_some, hmineHeight]
    · simp only [pure, Except.pure, Except.ok.injEq] at h
      rw [← h, enqueue_frames, heights_set joined htarget, join_stack_length hjoin, hmineHeight]

theorem flowInto_ok_iff (d : Domain V) (s : Progress V) (target : Nat) (f : Frame V) :
    (∃ t, s.flowInto d target f = .ok t) ↔
      ∀ there, heights s.frames target = some there → there = f.stack.length := by
  unfold flowInto heights
  split
  · rename_i hnone
    simp [hnone]
  · rename_i mine hmine
    simp only [hmine, Option.map_some, Option.some.injEq, forall_eq']
    by_cases heq : mine.stack.length = f.stack.length
    · refine ⟨fun _ => heq, fun _ => ?_⟩
      simp only [join, if_pos heq, bind, Except.bind]
      split_ifs
      · exact ⟨_, rfl⟩
      · exact ⟨_, rfl⟩
    · simp [join, heq, bind, Except.bind]

theorem flowInto_size {target : Nat} {f : Frame V} (h : s.flowInto d target f = .ok t) :
    t.frames.size = s.frames.size := by
  unfold flowInto at h
  split at h
  · simp only [Except.ok.injEq] at h
    rw [← h, enqueue_frames, Array.size_setIfInBounds]
  · obtain ⟨joined, _, h⟩ := bind_eq_ok.mp h
    split_ifs at h
    · simp only [pure, Except.pure, Except.ok.injEq] at h
      rw [h]
    · simp only [pure, Except.pure, Except.ok.injEq] at h
      rw [← h, enqueue_frames, Array.size_setIfInBounds]

theorem flowIntoAll_heights {targets : List Nat} {f : Frame V}
    (htargets : ∀ target ∈ targets, target < s.frames.size) (h : s.flowIntoAll d f targets = .ok t) :
    t.frames.size = s.frames.size ∧
      heights t.frames = heightsAfter (heights s.frames) (targets.map (·, f.stack.length)) := by
  induction targets generalizing s with
  | nil =>
    simp only [flowIntoAll, Except.ok.injEq] at h
    exact h ▸ ⟨rfl, rfl⟩
  | cons target rest ih =>
    obtain ⟨u, hu, h⟩ := bind_eq_ok.mp h
    rw [during_eq_ok] at hu
    have hsize := flowInto_size hu
    obtain ⟨hsize', hheights⟩ :=
      ih (fun q hq => hsize ▸ htargets q (List.mem_cons_of_mem _ hq)) h
    rw [flowInto_heights (htargets target (by simp)) hu] at hheights
    exact ⟨hsize'.trans hsize, hheights⟩

theorem flowIntoAll_ok_iff (d : Domain V) {targets : List Nat} (f : Frame V)
    (htargets : ∀ target ∈ targets, target < s.frames.size) :
    (∃ t, s.flowIntoAll d f targets = .ok t) ↔
      Meet (heights s.frames) (targets.map (·, f.stack.length)) := by
  induction targets generalizing s with
  | nil => simp [flowIntoAll, Meet]
  | cons target rest ih =>
    have hrest : ∀ {u : Progress V}, s.flowInto d target f = .ok u →
        ((∃ t, u.flowIntoAll d f rest = .ok t) ↔ Meet
          (Function.update (heights s.frames) target (some f.stack.length))
          (rest.map (·, f.stack.length))) := by
      intro u hu
      rw [ih fun q hq => flowInto_size hu ▸ htargets q (List.mem_cons_of_mem _ hq),
        flowInto_heights (htargets target (by simp)) hu]
    rw [List.map_cons, Meet, ← flowInto_ok_iff d s target f]
    constructor
    · rintro ⟨t, h⟩
      obtain ⟨u, hu, h⟩ := bind_eq_ok.mp h
      rw [during_eq_ok] at hu
      exact ⟨⟨u, hu⟩, (hrest hu).mp ⟨t, h⟩⟩
    · rintro ⟨⟨u, hu⟩, hmeet⟩
      obtain ⟨t, h⟩ := (hrest hu).mpr hmeet
      exact ⟨t, bind_eq_ok.mpr ⟨u, during_eq_ok.mpr hu, h⟩⟩

theorem flowIntoHandlers_ok_iff (d : Domain V) {edges : List HandlerEdge} (f : Frame V)
    (hedges : ∀ edge ∈ edges, edge.handler < s.frames.size) :
    (∃ t, s.flowIntoHandlers d f edges = .ok t) ↔
      Meet (heights s.frames) (edges.map fun edge => (edge.handler, 1)) := by
  induction edges generalizing s with
  | nil => simp [flowIntoHandlers, Meet]
  | cons edge rest ih =>
    have hrest : ∀ {u : Progress V}, s.flowInto d edge.handler (f.caught d edge.catchType) = .ok u →
        ((∃ t, u.flowIntoHandlers d f rest = .ok t) ↔ Meet
          (Function.update (heights s.frames) edge.handler (some 1))
          (rest.map fun edge => (edge.handler, 1))) := by
      intro u hu
      rw [ih fun e he => flowInto_size hu ▸ hedges e (List.mem_cons_of_mem _ he),
        flowInto_heights (hedges edge (by simp)) hu]
      rfl
    have hhead := flowInto_ok_iff d s edge.handler (f.caught d edge.catchType)
    rw [List.map_cons, Meet]
    constructor
    · rintro ⟨t, h⟩
      obtain ⟨u, hu, h⟩ := bind_eq_ok.mp h
      rw [during_eq_ok] at hu
      exact ⟨hhead.mp ⟨u, hu⟩, (hrest hu).mp ⟨t, h⟩⟩
    · rintro ⟨hmeets, hmeet⟩
      obtain ⟨u, hu⟩ := hhead.mpr hmeets
      obtain ⟨t, h⟩ := (hrest hu).mpr hmeet
      exact ⟨t, bind_eq_ok.mpr ⟨u, during_eq_ok.mpr hu, h⟩⟩

/-- A visit succeeds exactly if the position proceeds. -/
theorem visit_ok_iff {flow : Flow} (hinside : ∀ p move, flow.Allows p move → move.target < flow.size)
    (hsize : s.frames.size = flow.size) {position : Nat} :
    (∃ t, s.visit d flow position = .ok t) ↔
      ∀ before, s.frames.getD position none = some before →
        Proceeds d flow s.frames position before := by
  unfold visit
  split
  · rename_i hnone
    simp [hnone]
  · rename_i before hbefore
    simp only [hbefore, Option.some.injEq, forall_eq']
    have htargets : ∀ targets, flow.successors position = .ok targets →
        ∀ q ∈ targets, q < s.frames.size := fun targets htargets q hq =>
      hsize ▸ hinside position (.next q) ⟨targets, htargets, hq⟩
    have hhandlers : (flow.insnAt position).isReal = true →
        ∀ edge ∈ flow.handlersAt position, edge.handler < s.frames.size := fun hreal edge hedge =>
      hsize ▸ hinside position (.raise edge) ⟨hreal, hedge⟩
    constructor
    · rintro ⟨t, h⟩
      obtain ⟨after, hafter, h⟩ := bind_eq_ok.mp h
      rw [during_eq_ok] at hafter
      obtain ⟨targets, hsuccessors, h⟩ := bind_eq_ok.mp h
      obtain ⟨u, hu, h⟩ := bind_eq_ok.mp h
      refine ⟨after, targets, hafter, hsuccessors, Meet.append.mpr
        ⟨(flowIntoAll_ok_iff d after (htargets targets hsuccessors)).mp ⟨u, hu⟩, ?_⟩⟩
      obtain ⟨husize, huheights⟩ := flowIntoAll_heights (htargets targets hsuccessors) hu
      rw [← huheights]
      split_ifs at h ⊢ with hreal
      · exact (flowIntoHandlers_ok_iff d before fun edge hedge => husize ▸ hhandlers hreal edge hedge).mp ⟨t, h⟩
      · trivial
    · rintro ⟨after, targets, hafter, hsuccessors, hmeet⟩
      obtain ⟨hmeet, hmeet'⟩ := Meet.append.mp hmeet
      obtain ⟨u, hu⟩ := (flowIntoAll_ok_iff d after (htargets targets hsuccessors)).mpr hmeet
      obtain ⟨husize, huheights⟩ := flowIntoAll_heights (htargets targets hsuccessors) hu
      rw [← huheights] at hmeet'
      simp only [during_eq_ok.mpr hafter, hsuccessors, hu, bind, Except.bind]
      split_ifs at hmeet' ⊢ with hreal
      · exact (flowIntoHandlers_ok_iff d before fun edge hedge => husize ▸ hhandlers hreal edge hedge).mpr hmeet'
      · exact ⟨u, rfl⟩

end Visit

section Settle

variable [DecidableEq V] {d : Domain V} {P : V → Prop} {rank : V → Nat} {height : Nat} {flow : Flow}
  {locals : Nat}

/-- Without a queue there is nowhere to come to. -/
theorem canGoOn_of_idle {s : Progress V} (hqueue : s.queue = []) {t : Progress V}
    (h : Comes d flow s t) : t.CanGoOn d flow := by
  intro position before hhead
  cases h with
  | refl => simp [hqueue] at hhead
  | visit hqueue' => simp [hqueue] at hqueue'

/-- A state with a queue can go on for ever if it can be visited and what comes then can go on. -/
theorem canGoOn_iff (hinside : ∀ p move, flow.Allows p move → move.target < flow.size)
    {s : Progress V} (hsize : s.frames.size = flow.size) {position : Nat} {queue : List Nat}
    (hqueue : s.queue = position :: queue) :
    (∀ u, Comes d flow s u → u.CanGoOn d flow) ↔
      ∃ t, (s.dequeue position queue).visit d flow position = .ok t ∧
        ∀ u, Comes d flow t u → u.CanGoOn d flow := by
  have hsize' : (s.dequeue position queue).frames.size = flow.size := hsize
  have hvisit : (∃ t, (s.dequeue position queue).visit d flow position = .ok t) ↔
      ∀ before, s.frames.getD position none = some before →
        Proceeds d flow s.frames position before := visit_ok_iff hinside hsize'
  constructor
  · intro h
    obtain ⟨t, ht⟩ := hvisit.mpr fun before hbefore =>
      h s (.refl s) position before (by simp [hqueue]) hbefore
    exact ⟨t, ht, fun u hu => h u (.visit hqueue ht hu)⟩
  · rintro ⟨t, ht, h⟩ u hu
    cases hu with
    | refl =>
      intro p before hp hbefore
      rw [hqueue, List.head?_cons, Option.some.injEq] at hp
      subst hp
      exact hvisit.mp ⟨t, ht⟩ before hbefore
    | visit hqueue' ht' hu =>
      rw [hqueue, List.cons.injEq] at hqueue'
      obtain ⟨rfl, rfl⟩ := hqueue'
      obtain rfl := Except.ok.inj (ht.symm.trans ht')
      exact h u hu

/-- With enough visits left, the solver has an answer exactly if it can go on in every state that it
comes to. -/
theorem settle_ok_iff (hd : d.RankedOn P rank height)
    (hinside : ∀ p move, flow.Allows p move → move.target < flow.size) (hkeeps : KeepsAll d flow P)
    {visits : Nat} {s : Progress V} (hs : s.Sound flow locals P)
    (hbudget : budget rank height flow.size (slotBound flow.size locals) s ≤ visits) :
    (∃ frames, settle d flow visits s = .ok frames) ↔ ∀ t, Comes d flow s t → t.CanGoOn d flow := by
  induction visits generalizing s with
  | zero =>
    have hqueue : s.queue = [] := by
      rw [budget] at hbudget
      exact List.length_eq_zero_iff.mp (by omega)
    refine ⟨fun _ t => canGoOn_of_idle hqueue, fun _ => ⟨s.frames, ?_⟩⟩
    simp [settle, hqueue]
  | succ visits ih =>
    cases hqueue : s.queue with
    | nil =>
      refine ⟨fun _ t => canGoOn_of_idle hqueue, fun _ => ⟨s.frames, ?_⟩⟩
      rw [settle, hqueue]
    | cons position queue =>
      have hsettle : settle d flow (visits + 1) s =
          ((s.dequeue position queue).visit d flow position >>= settle d flow visits) := by
        rw [settle, hqueue]
        rfl
      have hnext : ∀ t, (s.dequeue position queue).visit d flow position = .ok t →
          ((∃ frames, settle d flow visits t = .ok frames) ↔
            ∀ u, Comes d flow t u → u.CanGoOn d flow) := by
        intro t ht
        obtain ⟨ht', _, hpaid⟩ := hs.visit hd hinside hkeeps hqueue ht
        exact ih ht' (by omega)
      rw [canGoOn_iff hinside hs.wellFormed.frames hqueue, hsettle]
      constructor
      · rintro ⟨frames, h⟩
        obtain ⟨t, ht, h⟩ := bind_eq_ok.mp h
        exact ⟨t, ht, (hnext t ht).mp ⟨frames, h⟩⟩
      · rintro ⟨t, ht, h⟩
        obtain ⟨frames, h⟩ := (hnext t ht).mpr h
        exact ⟨frames, bind_eq_ok.mpr ⟨t, ht, h⟩⟩

end Settle

end Progress

/-- The nodes that the body refers to have their places, it has code, and the analysis can go on in
every state that it comes to. -/
def Fits [DecidableEq V] (d : Domain V) (m : MethodSig) (body : Body) : Prop :=
  ∃ flow, Flow.ofBody body = .ok flow ∧ 0 < flow.size ∧
    ∀ entry s, Frame.entry d m body.maxLocals = .ok entry →
      Progress.Comes d flow (Progress.start flow.size entry) s → s.CanGoOn d flow

theorem entry_stack {d : Domain V} {m : MethodSig} {maxLocals : UInt16} {entry : Frame V}
    (h : Frame.entry d m maxLocals = .ok entry) : entry.stack = [] := by
  unfold Frame.entry at h
  split at h
  · simp at h
  · dsimp only at h
    split_ifs at h
    · simp only [Except.ok.injEq] at h
      rw [← h]
    · simp only [Except.ok.injEq] at h
      rw [← h]

/-- Whether a method has an entry frame does not depend on its number of locals. -/
theorem entry_total {d : Domain V} {m : MethodSig} {maxLocals : UInt16} {entry : Frame V}
    (h : Frame.entry d m maxLocals = .ok entry) (maxLocals' : UInt16) :
    ∃ entry', Frame.entry d m maxLocals' = .ok entry' := by
  unfold Frame.entry at h ⊢
  split at h
  · simp at h
  · dsimp only
    split_ifs
    · exact ⟨_, rfl⟩
    · exact ⟨_, rfl⟩

/-- A method with an entry frame has an analysis exactly if its body fits: the bound on the number of
visits is never what ends it. -/
theorem analyze_ok_iff [DecidableEq V] {d : Domain V} {rank : V → Nat} (hd : d.Ranked rank)
    {m : MethodSig} {body : Body} {entry : Frame V}
    (hentry : Frame.entry d m body.maxLocals = .ok entry) :
    (∃ frames, analyze d m body = .ok frames) ↔ Fits d m body := by
  have hstack := entry_stack hentry
  have hsettle : ∀ {flow : Flow}, Flow.ofBody body = .ok flow → 0 < flow.size →
      ((∃ frames, Progress.settle d flow
          (visitBound (d.height (bracketBound m body)) flow.size entry.locals.size)
          (Progress.start flow.size entry) = .ok frames) ↔
        ∀ s, Progress.Comes d flow (Progress.start flow.size entry) s → s.CanGoOn d flow) :=
    fun hflow hsize => Progress.settle_ok_iff (hd.on (bracketBound m body))
      (fun p move hmove => hmove.target_lt hflow) (keepsAll_true d _)
      (Progress.start_sound hsize hstack (all_true entry))
      (Progress.budget_start_le (hd.on _) hsize (all_true entry) hstack)
  constructor
  · rintro ⟨frames, h⟩
    obtain ⟨flow, hflow, h⟩ := bind_eq_ok.mp h
    by_cases hsize : flow.size = 0
    · simp [hsize, throw, throwThe, MonadExceptOf.throw, bind, Except.bind] at h
    · rw [if_neg hsize, hentry] at h
      have hpos : 0 < flow.size := Nat.pos_of_ne_zero hsize
      refine ⟨flow, hflow, hpos, fun entry' s hentry' => ?_⟩
      obtain rfl := Except.ok.inj (hentry.symm.trans hentry')
      exact (hsettle hflow hpos).mp ⟨frames, h⟩ s
  · rintro ⟨flow, hflow, hpos, h⟩
    obtain ⟨frames, h⟩ := (hsettle hflow hpos).mpr fun s => h entry s hentry
    refine ⟨frames, bind_eq_ok.mpr ⟨flow, hflow, ?_⟩⟩
    rw [if_neg (Nat.ne_of_gt hpos)]
    exact bind_eq_ok.mpr ⟨entry, hentry, h⟩

end DirectCall.Frame
