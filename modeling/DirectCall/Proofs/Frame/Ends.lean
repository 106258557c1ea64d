import DirectCall.Frame.Solve
import DirectCall.Proofs.Frame.Fit
import DirectCall.Proofs.Frame.Keep
import DirectCall.Proofs.Result

/-!
# The analysis of every body ends

An analysis that fails has used up its visits, or it refuses the body (`analyze_refuses`). No other fault is its
own: in particular it never speaks of a place that no path reaches.

If ranks fall, the solver takes no more positions off its queue than the bound says that it is given
(`Visits.spends`), so the bound is never what ends an analysis (`ends_of_ranked`). The reason is that
no slot of any position changes more often than the height of the domain: along a run its rank only falls.
-/

namespace DirectCall.Frame

/-! ## Faults -/

/-- Faults of a body that an analysis does not get through. -/
inductive Refusal : Fault → Prop where
  | within (context : Context) (cause : Fault) : Refusal (.within context cause)
  | descriptor (text : String) (cause : DescriptorError) : Refusal (.descriptor text cause)
  | noCode (name signature : String) : Refusal (.noCode name signature)
  | fallsOffEnd : Refusal .fallsOffEnd
  | strangeLabel : Refusal .strangeLabel

section Faults

variable {V : Type} {e : Fault}

theorem find_refuses {positions : Positions} {id : NodeId} (h : positions.find id = .error e) :
    Refusal e := by
  unfold Positions.find at h
  split at h
  · cases h
  · cases h
    exact .strangeLabel

theorem ofBody_refuses {body : Body} (h : Flow.ofBody body = .error e) : Refusal e := by
  rcases bind_eq_error.mp h with hcoverages | ⟨_, _, h⟩
  · obtain ⟨r, _, hr⟩ := mapM_eq_error hcoverages
    rcases bind_eq_error.mp hr with hstart | ⟨_, _, hr⟩
    · exact find_refuses hstart
    · rcases bind_eq_error.mp hr with hstop | ⟨_, _, hr⟩
      · exact find_refuses hstop
      · rcases bind_eq_error.mp hr with hhandler | ⟨_, _, hr⟩
        · exact find_refuses hhandler
        · cases hr
  · cases h

theorem entry_refuses {d : Domain V} {m : MethodSig} {maxLocals : UInt16}
    (h : Frame.entry d m maxLocals = .error e) : Refusal e := by
  unfold Frame.entry at h
  split at h
  · cases h
    exact .descriptor _ _
  · dsimp only at h
    split_ifs at h

theorem during_refuses {α : Type} {context : Context} {result : Except Fault α}
    (h : during context result = .error e) : Refusal e := by
  obtain ⟨cause, _, rfl⟩ := during_eq_error.mp h
  exact .within context cause

theorem successors_refuses {flow : Flow} {position : Nat} (h : flow.successors position = .error e) :
    Refusal e := by
  rcases bind_eq_error.mp h with htargets | ⟨targets, _, h⟩
  · obtain ⟨id, _, hfind⟩ := mapM_eq_error htargets
    exact find_refuses hfind
  · split_ifs at h
    · cases h
    · cases h
    · cases h
      exact .fallsOffEnd

namespace Progress

variable [DecidableEq V] {d : Domain V} {flow : Flow} {s : Progress V}

theorem flowIntoAll_refuses {targets : List Nat} {f : Frame V} (h : s.flowIntoAll d f targets = .error e) :
    Refusal e := by
  induction targets generalizing s with
  | nil => cases h
  | cons target rest ih =>
    rcases bind_eq_error.mp h with hflow | ⟨u, _, h⟩
    · exact during_refuses hflow
    · exact ih h

theorem flowIntoHandlers_refuses {edges : List HandlerEdge} {f : Frame V}
    (h : s.flowIntoHandlers d f edges = .error e) : Refusal e := by
  induction edges generalizing s with
  | nil => cases h
  | cons edge rest ih =>
    rcases bind_eq_error.mp h with hflow | ⟨u, _, h⟩
    · exact during_refuses hflow
    · exact ih h

/-- No visit takes a bound on visits for its failure. -/
theorem visit_refuses {position : Nat} (h : s.visit d flow position = .error e) : Refusal e := by
  unfold Progress.visit at h
  split at h
  · cases h
  · rcases bind_eq_error.mp h with hexecute | ⟨after, _, h⟩
    · exact during_refuses hexecute
    · rcases bind_eq_error.mp h with hsuccessors | ⟨targets, _, h⟩
      · exact successors_refuses hsuccessors
      · rcases bind_eq_error.mp h with hnext | ⟨u, _, h⟩
        · exact flowIntoAll_refuses hnext
        · split_ifs at h
          · exact flowIntoHandlers_refuses h
          · cases h

theorem settle_refuses {visits : Nat} (h : settle d flow visits s = .error e) :
    e = .unsettled ∨ Refusal e := by
  induction visits generalizing s with
  | zero =>
    rw [settle] at h
    split_ifs at h
    · cases h
      exact .inl rfl
  | succ visits ih =>
    rw [settle] at h
    split at h
    · cases h
    · rcases bind_eq_error.mp h with hvisit | ⟨t, _, h⟩
      · exact .inr (visit_refuses hvisit)
      · exact ih h

end Progress

/-- The faults of an analysis are that it did not come to an end, and refusals. -/
theorem analyze_refuses [DecidableEq V] {d : Domain V} {m : MethodSig} {body : Body}
    (h : analyze d m body = .error e) : e = .unsettled ∨ Refusal e := by
  rcases bind_eq_error.mp h with hflow | ⟨flow, _, h⟩
  · exact .inr (ofBody_refuses hflow)
  · by_cases hsize : flow.size = 0
    · rw [if_pos hsize] at h
      cases h
      exact .inr (.noCode _ _)
    · rw [if_neg hsize] at h
      rcases bind_eq_error.mp h with hentry | ⟨entry, _, h⟩
      · exact .inr (entry_refuses hentry)
      · exact Progress.settle_refuses h

end Faults

/-! ## Visits -/

variable {V : Type}

namespace Progress

/-- So many positions are taken off the queue and visited from one state to the other. -/
inductive Visits [DecidableEq V] (d : Domain V) (flow : Flow) : Nat → Progress V → Progress V → Prop where
  | none (s : Progress V) : Visits d flow 0 s s
  | visit {count position : Nat} {s t u : Progress V} {queue : List Nat} :
      s.queue = position :: queue → (s.dequeue position queue).visit d flow position = .ok t →
        Visits d flow count t u → Visits d flow (count + 1) s u

section Visits

variable [DecidableEq V] {d : Domain V} {P : V → Prop} {rank : V → Nat} {height locals : Nat} {flow : Flow}
  {s t : Progress V}

/-- Visits keep states sound; they are paid for, and slots that change fall. -/
theorem Visits.spends (hd : d.RankedOn P rank height)
    (hinside : ∀ p move, flow.Allows p move → move.target < flow.size) (hkeeps : KeepsAll d flow P)
    {count : Nat} (h : Visits d flow count s t) (hs : s.Sound flow locals P) :
    t.Sound flow locals P ∧ Grows (Fallen rank) s.frames t.frames ∧
      count + budget rank height flow.size (slotBound flow.size locals) t ≤
        budget rank height flow.size (slotBound flow.size locals) s := by
  induction h with
  | none s => exact ⟨hs, fun _ f hf => ⟨f, hf, fallen_refl rank f⟩, by omega⟩
  | visit hqueue ht _ ih =>
    obtain ⟨ht, hfalls, hpaid⟩ := hs.visit hd hinside hkeeps hqueue ht
    obtain ⟨hu, hfalls', hpaid'⟩ := ih ht
    exact ⟨hu, hfalls.fallen_trans hfalls', by omega⟩

/-- The solver comes to an end before it runs out of visits. -/
theorem settle_ne_unsettled (hd : d.RankedOn P rank height)
    (hinside : ∀ p move, flow.Allows p move → move.target < flow.size) (hkeeps : KeepsAll d flow P)
    {visits : Nat} (hs : s.Sound flow locals P)
    (hbudget : budget rank height flow.size (slotBound flow.size locals) s ≤ visits) :
    settle d flow visits s ≠ .error .unsettled := by
  induction visits generalizing s with
  | zero =>
    have hqueue : s.queue = [] := by
      rw [budget] at hbudget
      exact List.length_eq_zero_iff.mp (by omega)
    intro h
    rw [settle, hqueue] at h
    cases h
  | succ visits ih =>
    intro h
    rw [settle] at h
    split at h
    · cases h
    · rename_i position queue hqueue
      rcases bind_eq_error.mp h with hvisit | ⟨t, ht, h⟩
      · cases visit_refuses hvisit
      · obtain ⟨ht, _, hpaid⟩ := hs.visit hd hinside hkeeps hqueue ht
        exact ih ht (by omega) h

end Visits

end Progress

/-- The analysis of a body ends: not for lack of visits, of which there are no more than a bound that the
body and the domain give. For there are ranks of at most the height of the domain, and a slot that changes
falls in rank. -/
structure Ends [DecidableEq V] (d : Domain V) (m : MethodSig) (body : Body) : Prop where
  settles : analyze d m body ≠ .error .unsettled
  visits : ∀ flow entry, Flow.ofBody body = .ok flow → 0 < flow.size →
    Frame.entry d m body.maxLocals = .ok entry →
      ∀ count s, Progress.Visits d flow count (.start flow.size entry) s →
        count ≤ visitBound (d.height (bracketBound m body)) flow.size entry.locals.size
  changes : ∃ rank : V → Nat, ∀ flow entry, Flow.ofBody body = .ok flow → 0 < flow.size →
    Frame.entry d m body.maxLocals = .ok entry →
      ∀ count s, Progress.Visits d flow count (.start flow.size entry) s →
        (∀ p f, s.frames.getD p none = some f → ∀ v ∈ f.slots, rank v ≤ d.height (bracketBound m body)) ∧
          ∀ more t, Progress.Visits d flow more s t → Grows (Fallen rank) s.frames t.frames

/-- The values that occur have a property that instructions and joins keep, and with it ranks that fall. -/
theorem ends_of_ranked [DecidableEq V] {d : Domain V} {P : V → Prop} {rank : V → Nat} {m : MethodSig}
    {body : Body} (hd : d.RankedOn P rank (d.height (bracketBound m body)))
    (hentry : ∀ entry, Frame.entry d m body.maxLocals = .ok entry → entry.All P)
    (hkeeps : ∀ flow, Flow.ofBody body = .ok flow → KeepsAll d flow P) : Ends d m body := by
  have hsound : ∀ {flow : Flow} {entry : Frame V}, 0 < flow.size →
      Frame.entry d m body.maxLocals = .ok entry →
        (Progress.start flow.size entry).Sound flow entry.locals.size P := fun hpos hentry' =>
    Progress.start_sound hpos (entry_stack hentry') (hentry _ hentry')
  have hbudget : ∀ {flow : Flow} {entry : Frame V}, 0 < flow.size →
      Frame.entry d m body.maxLocals = .ok entry →
        Progress.budget rank (d.height (bracketBound m body)) flow.size
            (Progress.slotBound flow.size entry.locals.size) (.start flow.size entry) ≤
          visitBound (d.height (bracketBound m body)) flow.size entry.locals.size := fun hpos hentry' =>
    Progress.budget_start_le hd hpos (hentry _ hentry') (entry_stack hentry')
  refine ⟨fun h => ?_, fun flow entry hflow hpos hentry' count s hvisits => ?_, rank,
    fun flow entry hflow hpos hentry' count s hvisits => ?_⟩
  · rcases bind_eq_error.mp h with hflow | ⟨flow, hflow, h⟩
    · cases ofBody_refuses hflow
    · by_cases hsize : flow.size = 0
      · rw [if_pos hsize] at h
        cases h
      · have hpos : 0 < flow.size := Nat.pos_of_ne_zero hsize
        rw [if_neg hsize] at h
        rcases bind_eq_error.mp h with hentry' | ⟨entry, hentry', h⟩
        · cases entry_refuses hentry'
        · exact Progress.settle_ne_unsettled hd (fun p move hmove => hmove.target_lt hflow)
            (hkeeps flow hflow) (hsound hpos hentry') (hbudget hpos hentry') h
  · obtain ⟨_, _, hpaid⟩ := hvisits.spends hd (fun p move hmove => hmove.target_lt hflow)
      (hkeeps flow hflow) (hsound hpos hentry')
    have := hbudget hpos hentry'
    omega
  · obtain ⟨hs, _, _⟩ := hvisits.spends hd (fun p move hmove => hmove.target_lt hflow)
      (hkeeps flow hflow) (hsound hpos hentry')
    refine ⟨fun p f hf v hv => hd.bounded v (hs.all p f hf v hv), fun more t hmore => ?_⟩
    exact (hmore.spends hd (fun p move hmove => hmove.target_lt hflow) (hkeeps flow hflow) hs).2.1

end DirectCall.Frame
