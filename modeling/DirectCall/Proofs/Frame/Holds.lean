import DirectCall.Proofs.Frame.Fixpoint

/-!
# What visits keep

A property of the frames at all positions is kept by a visit if joins keep it and if it is true of the
frames that the visit hands on (`Progress.Holds.visit`). So is a property of the values in all slots
(`Frame.All`), if instructions and joins keep it.
-/

namespace DirectCall.Frame

variable {V : Type}

namespace Progress

/-- All frames so far have a property. -/
def Holds (Q : Nat → Frame V → Prop) (s : Progress V) : Prop :=
  ∀ p f, s.frames.getD p none = some f → Q p f

theorem lt_of_getD {frames : Frames V} {position : Nat} {f : Frame V}
    (h : frames.getD position none = some f) : position < frames.size := by
  by_contra hge
  rw [Array.getD_eq_getD_getElem?, Array.getElem?_eq_none (Nat.le_of_not_lt hge)] at h
  cases h

/-- What two frames at a position have in common is kept by their join. -/
def JoinKeeps (d : Domain V) (Q : Nat → Frame V → Prop) : Prop :=
  ∀ p f g joined, Q p f → Q p g → f.join d g = .ok joined → Q p joined

section Holds

variable {d : Domain V} {Q : Nat → Frame V → Prop} {s t : Progress V}

theorem Holds.set (h : s.Holds Q) {target : Nat} {f : Frame V} (hf : Q target f) :
    Holds Q { s with frames := s.frames.setIfInBounds target (some f) } := by
  intro p g hg
  simp only [Array.getD_eq_getD_getElem?, Array.getElem?_setIfInBounds] at hg
  split_ifs at hg with heq hlt
  · rw [Option.getD_some, Option.some.injEq] at hg
    exact heq ▸ hg ▸ hf
  · simp at hg
  · exact h p g (by rw [Array.getD_eq_getD_getElem?]; exact hg)

theorem Holds.enqueue (h : s.Holds Q) (position : Nat) : (s.enqueue position).Holds Q := by
  intro p f hf
  rw [enqueue_frames] at hf
  exact h p f hf

variable [DecidableEq V]

theorem Holds.flowInto (hjoin : JoinKeeps d Q) (h : s.Holds Q) {target : Nat} {f : Frame V}
    (hf : Q target f) (ht : s.flowInto d target f = .ok t) : t.Holds Q := by
  unfold Progress.flowInto at ht
  split at ht
  · obtain rfl := Except.ok.inj ht
    exact (h.set hf).enqueue target
  · rename_i mine hmine
    obtain ⟨joined, hjoined, ht⟩ := bind_eq_ok.mp ht
    split_ifs at ht
    · obtain rfl := Except.ok.inj ht
      exact h
    · obtain rfl := Except.ok.inj ht
      exact (h.set (hjoin target mine f joined (h target mine hmine) hf hjoined)).enqueue target

theorem Holds.flowIntoAll (hjoin : JoinKeeps d Q) (h : s.Holds Q) {targets : List Nat} {f : Frame V}
    (hf : ∀ target ∈ targets, Q target f) (ht : s.flowIntoAll d f targets = .ok t) : t.Holds Q := by
  induction targets generalizing s with
  | nil =>
    obtain rfl := Except.ok.inj ht
    exact h
  | cons target rest ih =>
    obtain ⟨u, hu, ht⟩ := bind_eq_ok.mp ht
    rw [during_eq_ok] at hu
    exact ih (h.flowInto hjoin (hf target (by simp)) hu)
      (fun q hq => hf q (List.mem_cons_of_mem _ hq)) ht

theorem Holds.flowIntoHandlers (hjoin : JoinKeeps d Q) (h : s.Holds Q) {edges : List HandlerEdge}
    {f : Frame V} (hf : ∀ edge ∈ edges, Q edge.handler (f.caught d edge.catchType))
    (ht : s.flowIntoHandlers d f edges = .ok t) : t.Holds Q := by
  induction edges generalizing s with
  | nil =>
    obtain rfl := Except.ok.inj ht
    exact h
  | cons edge rest ih =>
    obtain ⟨u, hu, ht⟩ := bind_eq_ok.mp ht
    rw [during_eq_ok] at hu
    exact ih (h.flowInto hjoin (hf edge (by simp)) hu)
      (fun e he => hf e (List.mem_cons_of_mem _ he)) ht

/-- A visit keeps what is true of all frames, if it is true of those that the visit hands on. -/
theorem Holds.visit {flow : Flow} (hjoin : JoinKeeps d Q) (h : s.Holds Q) {position : Nat}
    (hmove : ∀ before move g, s.frames.getD position none = some before →
      flow.Allows position move → before.pass d flow position move = .ok g → Q move.target g)
    (ht : s.visit d flow position = .ok t) : t.Holds Q := by
  unfold Progress.visit at ht
  split at ht
  · obtain rfl := Except.ok.inj ht
    exact h
  · rename_i before hbefore
    obtain ⟨after, hafter, ht⟩ := bind_eq_ok.mp ht
    rw [during_eq_ok] at hafter
    obtain ⟨targets, htargets, ht⟩ := bind_eq_ok.mp ht
    obtain ⟨u, hu, ht⟩ := bind_eq_ok.mp ht
    have hnext := h.flowIntoAll hjoin
      (fun q hq => hmove before (.next q) after hbefore ⟨targets, htargets, hq⟩ hafter) hu
    split_ifs at ht with hreal
    · exact hnext.flowIntoHandlers hjoin
        (fun edge hedge => hmove before (.raise edge) _ hbefore ⟨hreal, hedge⟩ rfl) ht
    · obtain rfl := Except.ok.inj ht
      exact hnext

omit [DecidableEq V] in
theorem start_holds {size : Nat} {entry : Frame V} (hpos : 0 < size) (hstart : Q 0 entry) :
    (start size entry).Holds Q := by
  intro p f hf
  rw [start, getD_set (by simpa using hpos)] at hf
  split_ifs at hf with heq
  · rw [Option.some.injEq] at hf
    exact heq ▸ hf ▸ hstart
  · simp only [Array.getD_eq_getD_getElem?, Array.getElem?_replicate] at hf
    split_ifs at hf <;> simp at hf

end Holds

end Progress

/-! ## Properties of values -/

/-- Every slot has the property. -/
def All (P : V → Prop) (f : Frame V) : Prop := ∀ v ∈ f.slots, P v

/-- Instructions keep the property, and what handlers find on the stack has it. -/
structure KeepsAll [DecidableEq V] (d : Domain V) (flow : Flow) (P : V → Prop) : Prop where
  executes : ∀ position < flow.size, ∀ before after : Frame V, before.All P →
    before.execute d (flow.idAt position) (flow.insnAt position) = .ok after → after.All P
  raises : ∀ position, ∀ edge ∈ flow.handlersAt position, P (d.exception edge.catchType)

section All

variable {d : Domain V} {P : V → Prop} {f g joined : Frame V}

theorem all_iff : f.All P ↔ (∀ v ∈ f.locals, P v) ∧ ∀ v ∈ f.stack, P v := by
  simp only [All, slots, List.mem_append, Array.mem_toList_iff, or_imp, forall_and]

theorem all_zipWith (hjoin : ∀ v w, P v → P w → P (d.join v w)) {vs ws : List V} (hvs : ∀ v ∈ vs, P v)
    (hws : ∀ w ∈ ws, P w) : ∀ u ∈ List.zipWith d.join vs ws, P u := by
  intro u hu
  obtain ⟨i, hi, rfl⟩ := List.mem_iff_getElem.mp hu
  rw [List.getElem_zipWith]
  exact hjoin _ _ (hvs _ (List.getElem_mem _)) (hws _ (List.getElem_mem _))

theorem All.join (hjoin : ∀ v w, P v → P w → P (d.join v w)) (hf : f.All P) (hg : g.All P)
    (h : f.join d g = .ok joined) : joined.All P := by
  rw [all_iff] at hf hg
  unfold Frame.join at h
  split_ifs at h
  obtain rfl := Except.ok.inj h
  refine all_iff.mpr ⟨fun v hv => ?_, all_zipWith hjoin hf.2 hg.2⟩
  rw [← Array.mem_toList_iff, Array.toList_zipWith] at hv
  exact all_zipWith hjoin (fun v hv => hf.1 v (Array.mem_toList_iff.mp hv))
    (fun w hw => hg.1 w (Array.mem_toList_iff.mp hw)) v hv

theorem All.caught (hf : f.All P) {catchType : Option String} (hexception : P (d.exception catchType)) :
    (f.caught d catchType).All P := by
  refine all_iff.mpr ⟨(all_iff.mp hf).1, fun v hv => ?_⟩
  rw [Frame.caught, List.mem_singleton] at hv
  exact hv ▸ hexception

/-- What a move hands on has the property. -/
theorem KeepsAll.pass [DecidableEq V] {flow : Flow} (h : KeepsAll d flow P) {position : Nat}
    (hposition : position < flow.size) (hf : f.All P) {move : Move} (hmove : flow.Allows position move)
    (hg : f.pass d flow position move = .ok g) : g.All P := by
  cases move with
  | next target => exact h.executes position hposition f g hf hg
  | raise edge =>
    obtain rfl := Except.ok.inj hg
    exact hf.caught (h.raises position edge hmove.2)

theorem joinKeeps_all (hjoin : ∀ v w, P v → P w → P (d.join v w)) :
    Progress.JoinKeeps d fun _ f => f.All P :=
  fun _ _ _ _ hf hg => hf.join hjoin hg

/-- A visit keeps the property. -/
theorem KeepsAll.visit [DecidableEq V] {flow : Flow} (h : KeepsAll d flow P)
    (hjoin : ∀ v w, P v → P w → P (d.join v w)) {s t : Progress V} (hsize : s.frames.size = flow.size)
    (hs : s.Holds fun _ f => f.All P) {position : Nat} (ht : s.visit d flow position = .ok t) :
    t.Holds fun _ f => f.All P :=
  hs.visit (joinKeeps_all hjoin) (fun before _ _ hbefore =>
    h.pass (hsize ▸ Progress.lt_of_getD hbefore) (hs position before hbefore)) ht

/-! Every value has the property that is always true. -/

theorem all_true (f : Frame V) : f.All fun _ => True := fun _ _ => trivial

theorem keepsAll_true [DecidableEq V] (d : Domain V) (flow : Flow) : KeepsAll d flow fun _ => True :=
  ⟨fun _ _ _ after _ _ => all_true after, fun _ _ _ => trivial⟩

end All

end DirectCall.Frame
