import DirectCall.Proofs.Frame.Relocate
import DirectCall.Proofs.Frame.Arrive

/-!
# Straight code

What a visit does where control passes on to the next position only (`visit_straight`), and what several
visits do. A frame that is new at a row of marks, and in the row, goes through the marks at once: the solver
visits the last queued position first, so nothing else comes in between (`walk_marks`).
-/

namespace DirectCall

variable {V : Type}

theorem Insn.targets_eq_nil_of_not_isReal {insn : Insn} (h : insn.isReal = false) :
    insn.targets = [] ∧ insn.endsFlow = false ∧ insn.opcode? = none := by
  cases insn with
  | label => exact ⟨rfl, rfl, rfl⟩
  | line number => exact ⟨rfl, rfl, rfl⟩
  | _ => cases h

/-- Control passes on to the next position, or falls off the end. -/
structure Insn.IsStraight (insn : Insn) : Prop where
  targets : insn.targets = []
  continues : insn.endsFlow = false

theorem Insn.isStraight_of_not_isReal {insn : Insn} (h : insn.isReal = false) : insn.IsStraight :=
  ⟨(targets_eq_nil_of_not_isReal h).1, (targets_eq_nil_of_not_isReal h).2.1⟩

theorem Flow.successors_straight {flow : Flow} {p : Nat} (h : (flow.insnAt p).IsStraight) {targets : List Nat} :
    flow.successors p = .ok targets ↔ p + 1 < flow.size ∧ targets = [p + 1] := by
  have hnone : flow.targetsAt p = .ok [] := by
    rw [targetsAt, h.targets]
    rfl
  rw [successors, hnone]
  simp only [bind, Except.bind, h.continues, Bool.false_eq_true, if_false, List.nil_append]
  by_cases hnext : p + 1 < flow.size
  · rw [if_pos hnext]
    exact ⟨fun heq => ⟨hnext, (Except.ok.inj heq).symm⟩, fun heq => congrArg Except.ok heq.2.symm⟩
  · rw [if_neg hnext]
    exact ⟨nofun, fun heq => absurd heq.1 hnext⟩

namespace Frame

/-- A real instruction that takes one frame to the other, and control to the next position. -/
structure Takes [DecidableEq V] (d : Domain V) (insn : Insn) (before after : Frame V) : Prop where
  straight : insn.IsStraight
  real : insn.isReal = true
  executes : ∀ id, before.execute d id insn = .ok after

theorem execute_mark [DecidableEq V] {insn : Insn} (h : insn.isReal = false) (d : Domain V) (id : NodeId)
    (f : Frame V) : f.execute d id insn = .ok f := by
  rw [execute, (Insn.targets_eq_nil_of_not_isReal h).2.2]

/-! ## Frames that give way -/

/-- What is known at a place gives way to the frame, which is another one. -/
structure Yields (d : Domain V) (there : Option (Frame V)) (f : Frame V) : Prop where
  differs : there ≠ some f
  gives : Progress.meet d there f = .ok f

theorem join_push {d : Domain V} {f g joined : Frame V} (h : f.join d g = .ok joined) (v w : V) :
    (f.push v).join d (g.push w) = .ok (joined.push (d.join v w)) := by
  unfold join at h ⊢
  split_ifs at h with hlength
  obtain rfl := Except.ok.inj h
  rw [if_pos (by simpa [push] using hlength)]
  rfl

theorem push_injective {f g : Frame V} {v : V} (h : f.push v = g.push v) : f = g := by
  cases f
  cases g
  simpa [push] using h

theorem Yields.push {d : Domain V} {there : Option (Frame V)} {f : Frame V} (h : Yields d there f) {v : V}
    (hv : d.join v v = v) : Yields d (there.map (·.push v)) (f.push v) := by
  cases there with
  | none => exact ⟨nofun, rfl⟩
  | some g =>
    refine ⟨fun heq => h.differs (congrArg some (push_injective (Option.some.inj heq))), ?_⟩
    have hjoin := join_push (show g.join d f = .ok f from h.gives) v v
    rwa [hv] at hjoin

namespace Progress

variable [DecidableEq V] {d : Domain V} {flow : Flow} {s t : Progress V} {p : Nat} {f before after : Frame V}

theorem raise_of_same (h : s.frames.getD p none = some f) : s.raise p f = s := if_pos h

/-- If merging what they catch changes no handler, the exceptions change nothing. -/
theorem flowIntoHandlers_of_unmoved {edges : List HandlerEdge}
    (h : ∀ edge ∈ edges, Unmoved d s.frames edge.handler (f.caught d edge.catchType)) :
    s.flowIntoHandlers d f edges = .ok s := by
  induction edges with
  | nil => rfl
  | cons edge rest ih =>
    rw [List.forall_mem_cons] at h
    obtain ⟨g, hg, hjoin⟩ := h.1
    refine bind_eq_ok.mpr ⟨s, during_eq_ok.mpr (flowInto_eq_ok.mpr ⟨g, ?_, (raise_of_same hg).symm⟩), ih h.2⟩
    rw [hg]
    exact hjoin

/-! ## Visits of straight code -/

theorem visit_straight (hstraight : (flow.insnAt p).IsStraight) (hbefore : s.frames.getD p none = some before)
    (hafter : before.execute d (flow.idAt p) (flow.insnAt p) = .ok after) :
    s.visit d flow p = .ok t ↔ p + 1 < flow.size ∧ ∃ g, meet d (s.frames.getD (p + 1) none) after = .ok g ∧
      (if (flow.insnAt p).isReal then (s.raise (p + 1) g).flowIntoHandlers d before (flow.handlersAt p)
        else .ok (s.raise (p + 1) g)) = .ok t := by
  have hnext : ∀ {u : Progress V}, s.flowIntoAll d after [p + 1] = .ok u ↔
      ∃ g, meet d (s.frames.getD (p + 1) none) after = .ok g ∧ u = s.raise (p + 1) g := by
    intro u
    rw [← flowInto_eq_ok]
    exact ⟨fun h => by
      obtain ⟨v, hv, h⟩ := bind_eq_ok.mp h
      obtain rfl := Except.ok.inj h
      exact during_eq_ok.mp hv, fun h => bind_eq_ok.mpr ⟨u, during_eq_ok.mpr h, rfl⟩⟩
  rw [visit_eq_ok hbefore]
  constructor
  · rintro ⟨after', targets, u, hafter', htargets, hu, ht⟩
    obtain rfl := Except.ok.inj (hafter.symm.trans hafter')
    obtain ⟨hlt, rfl⟩ := (Flow.successors_straight hstraight).mp htargets
    obtain ⟨g, hg, rfl⟩ := hnext.mp hu
    exact ⟨hlt, g, hg, ht⟩
  · rintro ⟨hlt, g, hg, ht⟩
    exact ⟨after, _, _, hafter, (Flow.successors_straight hstraight).mpr ⟨hlt, rfl⟩, hnext.mpr ⟨g, hg, rfl⟩, ht⟩

/-- The exceptions of a real instruction are caught in the frame before it. -/
theorem visit_takes (h : Takes d (flow.insnAt p) before after) (hbefore : s.frames.getD p none = some before) :
    s.visit d flow p = .ok t ↔ p + 1 < flow.size ∧ ∃ g, meet d (s.frames.getD (p + 1) none) after = .ok g ∧
      (s.raise (p + 1) g).flowIntoHandlers d before (flow.handlersAt p) = .ok t := by
  rw [visit_straight h.straight hbefore (h.executes _)]
  simp only [h.real, if_true]

/-- A mark passes a frame on as it is. -/
theorem visit_mark (hmark : (flow.insnAt p).isReal = false) (hnext : p + 1 < flow.size)
    (hbefore : s.frames.getD p none = some before) {g : Frame V}
    (hmeet : meet d (s.frames.getD (p + 1) none) before = .ok g) :
    s.visit d flow p = .ok (s.raise (p + 1) g) := by
  rw [visit_straight (Insn.isStraight_of_not_isReal hmark) hbefore (execute_mark hmark d _ before)]
  refine ⟨hnext, g, hmeet, ?_⟩
  rw [hmark]
  rfl

theorem settle_of_idle {visits : Nat} {frames : Frames V} (hqueue : s.queue = [])
    (hs : settle d flow visits s = .ok frames) : frames = s.frames := by
  cases visits with
  | zero =>
    rw [settle, hqueue] at hs
    exact (Except.ok.inj hs).symm
  | succ visits =>
    rw [settle, hqueue] at hs
    exact (Except.ok.inj hs).symm

/-- A run that has something left to do visits the first position of the queue. -/
theorem visit_of_settle {visits : Nat} {queue : List Nat} {frames : Frames V} (hqueue : s.queue = p :: queue)
    (hs : settle d flow visits s = .ok frames) :
    ∃ rest u, visits = rest + 1 ∧ (s.dequeue p queue).visit d flow p = .ok u ∧
      settle d flow rest u = .ok frames := by
  cases visits with
  | zero =>
    rw [settle, hqueue] at hs
    cases hs
  | succ rest =>
    rw [settle, hqueue] at hs
    obtain ⟨u, hu, hs⟩ := bind_eq_ok.mp hs
    exact ⟨rest, u, rfl, hu, hs⟩

theorem Visits.one {queue : List Nat} (hqueue : s.queue = p :: queue) (h : (s.dequeue p queue).visit d flow p = .ok t) :
    Visits d flow 1 s t :=
  .visit hqueue h (.none t)

theorem Visits.trans {u : Progress V} {count more : Nat} (h : Visits d flow count s t) (h' : Visits d flow more t u) :
    Visits d flow (count + more) s u := by
  induction h with
  | none s => rwa [Nat.zero_add]
  | visit hqueue hvisit _ ih =>
    rw [Nat.add_right_comm]
    exact .visit hqueue hvisit (ih h')

/-- Visits that were made are visits that a run makes. -/
theorem Visits.settle {count rest : Nat} {frames : Frames V} (h : Visits d flow count s t)
    (ht : Progress.settle d flow rest t = .ok frames) : Progress.settle d flow (count + rest) s = .ok frames := by
  induction h with
  | none s => rwa [Nat.zero_add]
  | visit hqueue hvisit _ ih =>
    rw [Nat.succ_add, Progress.settle, hqueue]
    exact bind_eq_ok.mpr ⟨_, hvisit, ih ht⟩

/-- A run that succeeds goes on with what is left to do after some visits. -/
theorem Visits.rest_of_settle {count visits : Nat} {frames : Frames V} (h : Visits d flow count s t)
    (hs : Progress.settle d flow visits s = .ok frames) :
    ∃ rest, visits = count + rest ∧ Progress.settle d flow rest t = .ok frames := by
  induction h generalizing visits with
  | none s => exact ⟨visits, (Nat.zero_add visits).symm, hs⟩
  | visit hqueue hvisit _ ih =>
    obtain ⟨left, u, rfl, hu, hleft⟩ := visit_of_settle hqueue hs
    obtain rfl := Except.ok.inj (hvisit.symm.trans hu)
    obtain ⟨rest, rfl, hrest⟩ := ih hleft
    exact ⟨rest, by omega, hrest⟩

theorem Visits.wellFormed {R : V → V → Prop} (hR : d.JoinAbsorbs R)
    (hinside : ∀ p move, flow.Allows p move → move.target < flow.size) {count locals : Nat}
    (h : Visits d flow count s t) (hs : s.WellFormed flow.size locals) : t.WellFormed flow.size locals := by
  induction h with
  | none s => exact hs
  | visit hqueue hvisit _ ih => exact ih (visit_advance hR hinside (dequeue_wellFormed hs hqueue) hvisit).1.wellFormed

/-- A frame goes through a row of marks that give way to it. -/
theorem walk_marks (hs : s.Tidy flow.size) {count : Nat} {queue : List Nat} (hqueue : s.queue = p :: queue)
    (hf : s.frames.getD p none = some f) (hmarks : ∀ i < count, (flow.insnAt (p + i)).isReal = false)
    (hinside : p + count < flow.size)
    (hyields : ∀ q, p < q → q ≤ p + count → q ∉ queue ∧ Yields d (s.frames.getD q none) f) :
    ∃ t, Visits d flow count s t ∧ t.Tidy flow.size ∧ t.queue = (p + count) :: queue ∧
      ∀ q, t.frames.getD q none = if p < q ∧ q ≤ p + count then some f else s.frames.getD q none := by
  induction count generalizing p s with
  | zero =>
    refine ⟨s, .none s, hs, hqueue, fun q => ?_⟩
    rw [if_neg (by omega)]
  | succ count ih =>
    obtain ⟨hout, hnext⟩ := hyields (p + 1) (by omega) (by omega)
    have hdequeued := hs.dequeue hqueue
    have hraised := hdequeued.raise (show p + 1 < flow.size by omega) f
    have hframes : ∀ q, ((s.dequeue p queue).raise (p + 1) f).frames.getD q none =
        if p + 1 = q then some f else s.frames.getD q none := by
      intro q
      rw [raise_getD (by rw [hdequeued.frames]; omega)]
      rfl
    have hqueued : ((s.dequeue p queue).raise (p + 1) f).queue = (p + 1) :: queue := by
      rw [hdequeued.raise_queue, if_neg]
      · rfl
      · exact not_or.mpr ⟨hnext.differs, hout⟩
    have hvisit : (s.dequeue p queue).visit d flow p = .ok ((s.dequeue p queue).raise (p + 1) f) :=
      visit_mark (s := s.dequeue p queue) (by simpa using hmarks 0 (by omega)) (by omega) hf hnext.gives
    obtain ⟨t, hvisits, htidy, htqueue, htframes⟩ := ih hraised hqueued (by rw [hframes, if_pos rfl])
      (fun i hi => by
        rw [Nat.add_assoc, Nat.add_comm 1 i]
        exact hmarks (i + 1) (by omega)) (by omega) fun q hlt hle => by
        rw [hframes, if_neg (by omega)]
        exact hyields q (by omega) (by omega)
    refine ⟨t, .visit hqueue hvisit hvisits, htidy, ?_, fun q => ?_⟩
    · rw [htqueue, Nat.add_assoc, Nat.add_comm 1 count]
    · rw [htframes, hframes]
      by_cases heq : p + 1 = q
      · rw [if_neg (by omega), if_pos heq, if_pos (by omega)]
      · rw [if_neg heq]
        by_cases hrow : p + 1 < q ∧ q ≤ p + 1 + count
        · rw [if_pos hrow, if_pos (by omega)]
        · rw [if_neg hrow, if_neg (by omega)]

end Progress

end Frame

end DirectCall
