import DirectCall.Proofs.Frame.Arrive
import DirectCall.Proofs.Frame.Ends
import DirectCall.Proofs.InsnList.Proper

/-!
# Runs of any length

The solver comes to an answer if it does so in some number of visits (`Settles`). An analysis that ends gives
this answer (`Settles.analyze_eq`). Whatever the number, exactly the positions that a path leads to have a
frame (`Settles.isSome_iff_reaches`).
-/

namespace DirectCall.Frame

variable {V : Type}

/-- The solver comes to these frames, however many visits it takes. -/
def Settles [DecidableEq V] (d : Domain V) (m : MethodSig) (body : Body) (frames : Frames V) : Prop :=
  ∃ flow entry visits, Flow.ofBody body = .ok flow ∧ 0 < flow.size ∧
    Frame.entry d m body.maxLocals = .ok entry ∧
      Progress.settle d flow visits (Progress.start flow.size entry) = .ok frames

namespace Progress

section Meet

variable [DecidableEq V] {d : Domain V} {flow : Flow} {s t : Progress V} {frames : Frames V}

/-- With other visits left, a run that succeeds comes to the same frames or runs out of visits. -/
theorem settle_again {visits : Nat} (h : settle d flow visits s = .ok frames) (more : Nat) :
    settle d flow more s = .ok frames ∨ settle d flow more s = .error .unsettled := by
  induction visits generalizing s more with
  | zero =>
    rw [settle] at h
    split_ifs at h with hempty
    have hqueue : s.queue = [] := List.isEmpty_iff.mp hempty
    left
    rw [← h]
    cases more with
    | zero => rw [settle, if_pos hempty]
    | succ more => rw [settle, hqueue]
  | succ visits ih =>
    rw [settle] at h
    split at h
    · rename_i hqueue
      left
      rw [← h]
      cases more with
      | zero => rw [settle, if_pos (List.isEmpty_iff.mpr hqueue)]
      | succ more => rw [settle, hqueue]
    · rename_i position queue hqueue
      obtain ⟨t, ht, h⟩ := bind_eq_ok.mp h
      cases more with
      | zero =>
        right
        rw [settle, if_neg]
        rw [hqueue]
        exact Bool.false_ne_true
      | succ more =>
        rw [settle, hqueue]
        simp only [ht, bind, Except.bind]
        exact ih h more

end Meet

end Progress

/-- A node has the same frame in two lists, or none in either. -/
def SameFrame (a b : InsnList) (frames frames' : Frames V) (id : NodeId) : Prop :=
  frames'.getD (b.rank id) none = frames.getD (a.rank id) none

theorem settles_of_analyze [DecidableEq V] {d : Domain V} {m : MethodSig} {body : Body} {frames : Frames V}
    (h : analyze d m body = .ok frames) : Settles d m body frames := by
  obtain ⟨flow, hflow, h⟩ := bind_eq_ok.mp h
  by_cases hsize : flow.size = 0
  · rw [if_pos hsize] at h
    cases h
  · rw [if_neg hsize] at h
    obtain ⟨entry, hentry, h⟩ := bind_eq_ok.mp h
    exact ⟨flow, entry, _, hflow, Nat.pos_of_ne_zero hsize, hentry, h⟩

/-- If the analysis ends, it gives the frames that the solver comes to. -/
theorem Settles.analyze_eq [DecidableEq V] {d : Domain V} {m : MethodSig} {body : Body} {frames : Frames V}
    (h : Settles d m body frames) (hends : Ends d m body) : analyze d m body = .ok frames := by
  obtain ⟨flow, entry, visits, hflow, hpos, hentry, h⟩ := h
  have hrun : analyze d m body = Progress.settle d flow
      (visitBound (d.height (bracketBound m body)) flow.size entry.locals.size)
      (Progress.start flow.size entry) := by
    rw [analyze, hflow]
    simp only [bind, Except.bind, if_neg (Nat.ne_of_gt hpos), hentry]
  rw [hrun]
  rcases Progress.settle_again h _ with heq | hunsettled
  · exact heq
  · exact absurd (hrun.trans hunsettled) hends.settles

/-- Frames that the solver comes to are closed. -/
theorem Settles.closed [DecidableEq V] {d : Domain V} {R : V → V → Prop} (hR : d.JoinAbsorbs R)
    {m : MethodSig} {body : Body} {frames : Frames V} (h : Settles d m body frames) {flow : Flow}
    (hflow : Flow.ofBody body = .ok flow) :
    ∃ entry, Frame.entry d m body.maxLocals = .ok entry ∧ 0 < flow.size ∧
      Absorbs R frames 0 entry ∧
        ∀ p f, frames.getD p none = some f → ClosedAt d R flow frames p f := by
  obtain ⟨flow', entry, visits, hflow', hpos, hentry, h⟩ := h
  obtain rfl := Except.ok.inj (hflow.symm.trans hflow')
  obtain ⟨hgrows, hclosed⟩ := Progress.settle_closed hR (fun p move hmove => hmove.target_lt hflow)
    (Progress.start_wellFormed hpos) (Progress.start_settling hpos) h
  refine ⟨entry, hentry, hpos, .grow hgrows ⟨entry, ?_, rel_refl hR.refl entry⟩, hclosed⟩
  rw [Progress.start, Progress.getD_set (by simpa using hpos), if_pos rfl]

/-- Exactly the positions that a path leads to have a frame. -/
theorem Settles.isSome_iff_reaches [DecidableEq V] {d : Domain V} {m : MethodSig} {body : Body}
    {frames : Frames V} (h : Settles d m body frames) {flow : Flow} (hflow : Flow.ofBody body = .ok flow)
    (p : Nat) : (frames.getD p none).isSome = true ↔ flow.Reaches p := by
  obtain ⟨_, _, hpos, hstart, hclosed⟩ := h.closed (Progress.joinBounds_true d).absorbs hflow
  constructor
  · intro hsome
    obtain ⟨f, hf⟩ := Option.isSome_iff_exists.mp hsome
    obtain ⟨flow', entry, visits, hflow', _, _, hrun⟩ := h
    obtain rfl := Except.ok.inj (hflow.symm.trans hflow')
    exact Progress.settle_holds (Q := fun q _ => flow.Reaches q) (fun _ _ _ _ hq _ _ => hq)
      (fun _ _ _ _ _ _ hq _ hbefore hmove _ => (hq _ _ hbefore).move hmove) (.refl _)
      (Progress.start_holds hpos ⟨[], trivial, rfl⟩) hrun p f hf
  · refine Flow.Reaches.induct (P := fun q => (frames.getD q none).isSome = true) ?_ fun q move _ hq hmove => ?_
    · obtain ⟨g, hg, _⟩ := hstart
      rw [hg]
      rfl
    · obtain ⟨f, hf⟩ := Option.isSome_iff_exists.mp hq
      obtain ⟨_, _, g, hg, _⟩ := (hclosed _ f hf).absorbed move hmove
      rw [hg]
      rfl

theorem isSome_iff_reaches [DecidableEq V] {d : Domain V} {m : MethodSig} {body : Body} {frames : Frames V}
    (h : analyze d m body = .ok frames) {flow : Flow} (hflow : Flow.ofBody body = .ok flow) (p : Nat) :
    (frames.getD p none).isSome = true ↔ flow.Reaches p :=
  (settles_of_analyze h).isSome_iff_reaches hflow p

end DirectCall.Frame
