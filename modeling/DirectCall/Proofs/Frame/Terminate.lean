import DirectCall.Proofs.Frame.Holds
import Mathlib.Algebra.GroupWithZero.Nat
import Mathlib.Algebra.Order.BigOperators.Group.Finset
import Mathlib.Algebra.Order.BigOperators.Group.List

/-!
# The analysis ends

A position is queued when it gets its first frame or when a slot of its frame is raised. Both can
happen only so often: the rank of a raised value falls, and a stack holds at most two values for each
position that was reached. `Progress.budget` counts what is left of both, and no visit adds to it
(`visit_spends`), while every visit starts by taking a position off the queue.

Ranks need only fall for the values that occur. They have some property `P` that moves and joins keep.
-/

namespace DirectCall

variable {V : Type}

/-- A value that `join` changes falls in rank, as long as both sides have the property `P`. -/
structure Domain.RankedOn (d : Domain V) (P : V → Prop) (rank : V → Nat) (height : Nat) : Prop where
  bounded : ∀ v, P v → rank v ≤ height
  keeps : ∀ v w, P v → P w → P (d.join v w)
  falls : ∀ v w, P v → P w → d.join v w ≠ v → rank (d.join v w) < rank v

/-- A value that `join` changes falls in rank, whatever it is. -/
structure Domain.Ranked (d : Domain V) (rank : V → Nat) : Prop where
  bounded : ∀ v brackets, rank v ≤ d.height brackets
  falls : ∀ v w, d.join v w ≠ v → rank (d.join v w) < rank v

theorem Domain.Ranked.on {d : Domain V} {rank : V → Nat} (hd : d.Ranked rank) (brackets : Nat) :
    d.RankedOn (fun _ => True) rank (d.height brackets) :=
  ⟨fun v _ => hd.bounded v brackets, fun _ _ _ _ => trivial, fun v w _ _ => hd.falls v w⟩

namespace Frame

/-! ## Ranks of frames -/

section Ranks

variable {d : Domain V} {P : V → Prop} {rank : V → Nat} {height : Nat}

def rankSum (rank : V → Nat) (f : Frame V) : Nat := (f.slots.map rank).sum

theorem rankSum_le (hd : d.RankedOn P rank height) {f : Frame V} (hf : f.All P) :
    f.rankSum rank ≤ (f.locals.size + f.stack.length) * height := by
  have hsum := List.sum_le_card_nsmul (f.slots.map rank) height (by
    intro n hn
    obtain ⟨v, hv, rfl⟩ := List.mem_map.mp hn
    exact hd.bounded v (hf v hv))
  have hlength : (f.slots.map rank).length = f.locals.size + f.stack.length := by
    simp [slots]
  rwa [hlength, Nat.nsmul_eq_mul] at hsum

/-- The value has stayed, or has become one of lower rank. -/
def Fallen (rank : V → Nat) (w v : V) : Prop := w = v ∨ rank w < rank v

theorem Fallen.trans {u v w : V} (h : Fallen rank v w) (h' : Fallen rank u v) : Fallen rank u w := by
  rcases h' with rfl | h'
  · exact h
  · rcases h with rfl | h
    · exact .inr h'
    · exact .inr (h'.trans h)

theorem fallen_refl (rank : V → Nat) (f : Frame V) : f.Rel (Fallen rank) f := rel_refl (fun _ => .inl rfl) f

theorem Grows.fallen_trans {frames grown last : Frames V} (h : Grows (Fallen rank) frames grown)
    (h' : Grows (Fallen rank) grown last) : Grows (Fallen rank) frames last := by
  intro position f hf
  obtain ⟨g, hg, hgf⟩ := h position f hf
  obtain ⟨g', hg', hrel⟩ := h' position g hg
  exact ⟨g', hg', hrel.trans (fun _ _ _ hfall hfall' => hfall'.trans hfall) hgf⟩

theorem sum_rank_of_fallen {ws vs : List V} (h : List.Forall₂ (Fallen rank) ws vs) :
    (ws.map rank).sum ≤ (vs.map rank).sum ∧ (ws ≠ vs → (ws.map rank).sum < (vs.map rank).sum) := by
  induction h with
  | nil => exact ⟨le_rfl, fun hne => absurd rfl hne⟩
  | @cons w v ws vs hhead _ ih =>
    obtain ⟨hle, hlt⟩ := ih
    simp only [List.map_cons, List.sum_cons]
    rcases hhead with rfl | hfall
    · exact ⟨by omega, fun hne => Nat.add_lt_add_left (hlt fun hrest => hne (by rw [hrest])) _⟩
    · exact ⟨by omega, fun _ => by omega⟩

theorem fallen_zipWith (hd : d.RankedOn P rank height) (xs ys : List V) (hlength : xs.length = ys.length)
    (hxs : ∀ x ∈ xs, P x) (hys : ∀ y ∈ ys, P y) :
    List.Forall₂ (Fallen rank) (List.zipWith d.join xs ys) xs := by
  induction xs generalizing ys with
  | nil => exact .nil
  | cons x xs ih =>
    cases ys with
    | nil => simp at hlength
    | cons y ys =>
      rw [List.forall_mem_cons] at hxs hys
      refine .cons ?_ (ih ys (by simpa using hlength) hxs.2 hys.2)
      by_cases heq : d.join x y = x
      · exact .inl heq
      · exact .inr (hd.falls x y hxs.1 hys.1 heq)

/-- Slot by slot a join keeps the value or has one of lower rank. -/
theorem fallen_join (hd : d.RankedOn P rank height) {f g joined : Frame V} (hf : f.All P) (hg : g.All P)
    (hlocals : f.locals.size = g.locals.size) (h : f.join d g = .ok joined) :
    joined.Rel (Fallen rank) f := by
  unfold join at h
  split_ifs at h with hstack
  obtain rfl := Except.ok.inj h
  rw [all_iff] at hf hg
  refine ⟨?_, fallen_zipWith hd f.stack g.stack hstack hf.2 hg.2⟩
  rw [Array.toList_zipWith]
  exact fallen_zipWith hd f.locals.toList g.locals.toList (by simpa using hlocals)
    (fun v hv => hf.1 v (Array.mem_toList_iff.mp hv)) (fun w hw => hg.1 w (Array.mem_toList_iff.mp hw))

/-- A frame whose slots fall has a lower rank, unless none of them changes. -/
theorem Rel.rankSum_lt {f g : Frame V} (h : g.Rel (Fallen rank) f) (hne : g ≠ f) :
    g.rankSum rank < f.rankSum rank := by
  obtain ⟨hlocalsLe, hlocalsLt⟩ := sum_rank_of_fallen h.locals
  obtain ⟨hstackLe, hstackLt⟩ := sum_rank_of_fallen h.stack
  simp only [rankSum, Frame.slots, List.map_append, List.sum_append]
  by_cases hsame : g.stack = f.stack
  · have hchanged : g.locals.toList ≠ f.locals.toList := by
      intro heq
      refine hne ?_
      cases g
      cases f
      rw [Array.toList_inj] at heq
      exact congrArg₂ Frame.mk heq hsame
    have := hlocalsLt hchanged
    omega
  · have := hstackLt hsame
    omega

theorem join_stack_length {f g joined : Frame V} (h : f.join d g = .ok joined) :
    joined.stack.length = f.stack.length := by
  unfold join at h
  split_ifs at h with hstack
  simp only [Except.ok.injEq] at h
  subst h
  simp [hstack]

end Ranks

namespace Progress

/-! ## The budget -/

/-- How often the frame of a position may still change while it has at most `slots` slots. -/
def roomAt (rank : V → Nat) (height slots : Nat) : Option (Frame V) → Nat
  | none => slots * height + 1
  | some f => f.rankSum rank

def room (rank : V → Nat) (height size slots : Nat) (frames : Frames V) : Nat :=
  ∑ p ∈ Finset.range size, roomAt rank height slots (frames.getD p none)

/-- Visits that may still be due. -/
def budget (rank : V → Nat) (height size slots : Nat) (s : Progress V) : Nat :=
  s.queue.length + room rank height size slots s.frames

/-- Number of positions that have a frame. -/
def reached (size : Nat) (frames : Frames V) : Nat :=
  ((Finset.range size).filter fun p => (frames.getD p none).isSome = true).card

/-- Every position that was reached accounts for two values on a stack. -/
def Shallow (size : Nat) (s : Progress V) : Prop :=
  ∀ p f, s.frames.getD p none = some f → f.stack.length ≤ 2 * reached size s.frames

section Budget

variable {rank : V → Nat} {height size slots locals : Nat} {s t : Progress V}

theorem reached_le (size : Nat) (frames : Frames V) : reached size frames ≤ size := by
  refine (Finset.card_filter_le _ _).trans ?_
  rw [Finset.card_range]

theorem reached_set_le (size : Nat) {frames : Frames V} {target : Nat} (f : Frame V)
    (htarget : target < frames.size) :
    reached size frames ≤ reached size (frames.setIfInBounds target (some f)) := by
  refine Finset.card_le_card fun p hp => ?_
  rw [Finset.mem_filter] at hp ⊢
  rw [getD_set htarget]
  refine ⟨hp.1, ?_⟩
  split_ifs
  · rfl
  · exact hp.2

theorem reached_set_lt {frames : Frames V} {target : Nat} (f : Frame V) (hsize : frames.size = size)
    (htarget : target < size) (hnone : frames.getD target none = none) :
    reached size frames < reached size (frames.setIfInBounds target (some f)) := by
  have hinside : target < frames.size := hsize ▸ htarget
  refine Finset.card_lt_card ⟨fun p hp => ?_, fun hsub => ?_⟩
  · rw [Finset.mem_filter] at hp ⊢
    rw [getD_set hinside]
    refine ⟨hp.1, ?_⟩
    split_ifs
    · rfl
    · exact hp.2
  · have hmem : target ∈ (Finset.range size).filter fun p =>
        ((frames.setIfInBounds target (some f)).getD p none).isSome = true := by
      rw [Finset.mem_filter, getD_set hinside]
      simpa using htarget
    have := (Finset.mem_filter.mp (hsub hmem)).2
    simp [hnone] at this

/-- A frame that takes up less room than the one before it pays for a place in the queue. -/
theorem budget_raise_le {target : Nat} {raised : Frame V} (hsize : s.frames.size = size)
    (htarget : target < size)
    (hroom : raised.rankSum rank < roomAt rank height slots (s.frames.getD target none)) :
    budget rank height size slots
        ({ s with frames := s.frames.setIfInBounds target (some raised) }.enqueue target) ≤
      budget rank height size slots s := by
  have hinside : target < s.frames.size := hsize ▸ htarget
  have hfall : room rank height size slots (s.frames.setIfInBounds target (some raised)) <
      room rank height size slots s.frames := by
    refine Finset.sum_lt_sum (fun p _ => ?_) ⟨target, Finset.mem_range.mpr htarget, ?_⟩
    · rw [getD_set hinside]
      split_ifs with heq
      · exact heq ▸ hroom.le
      · exact le_rfl
    · rw [getD_set hinside, if_pos rfl]
      exact hroom
  have hqueue : ({ s with frames := s.frames.setIfInBounds target (some raised) }.enqueue
      target).queue.length ≤ s.queue.length + 1 := by
    unfold enqueue
    split_ifs
    · simp
    · simp
  simp only [budget, enqueue_frames]
  omega

/-- What a part of a visit may do: it spends of the budget, slots that change fall, and stacks stay
shallow. -/
structure Spends (rank : V → Nat) (height size slots : Nat) (s t : Progress V) : Prop where
  budget : budget rank height size slots t ≤ budget rank height size slots s
  reached : reached size s.frames ≤ reached size t.frames
  falls : Grows (Fallen rank) s.frames t.frames
  shallow : t.Shallow size

theorem Spends.refl (hs : s.Shallow size) : Spends rank height size slots s s :=
  ⟨le_rfl, le_rfl, fun _ f hf => ⟨f, hf, fallen_refl rank f⟩, hs⟩

theorem Spends.trans {u : Progress V} (h : Spends rank height size slots s t)
    (h' : Spends rank height size slots t u) : Spends rank height size slots s u :=
  ⟨h'.budget.trans h.budget, h.reached.trans h'.reached, h.falls.fallen_trans h'.falls, h'.shallow⟩

/-- Raising a frame whose slots fall. -/
theorem falls_raise {target : Nat} {raised : Frame V} (htarget : target < s.frames.size)
    (hfallen : ∀ f, s.frames.getD target none = some f → raised.Rel (Fallen rank) f) :
    Grows (Fallen rank) s.frames
      ({ s with frames := s.frames.setIfInBounds target (some raised) }.enqueue target).frames := by
  intro p f hf
  rw [enqueue_frames]
  unfold Absorbs
  rw [getD_set htarget]
  by_cases heq : target = p
  · exact ⟨raised, if_pos heq, hfallen f (heq ▸ hf)⟩
  · exact ⟨f, (if_neg heq).trans hf, fallen_refl rank f⟩

theorem shallow_raise {target : Nat} {raised : Frame V} (hs : s.Shallow size)
    (htarget : target < s.frames.size)
    (hraised : raised.stack.length ≤
      2 * reached size (s.frames.setIfInBounds target (some raised))) :
    ({ s with frames := s.frames.setIfInBounds target (some raised) }.enqueue target).Shallow
      size := by
  intro p f hf
  have hreached := reached_set_le size raised htarget
  rw [enqueue_frames] at hf ⊢
  rw [getD_set htarget] at hf
  split_ifs at hf with heq
  · exact Option.some.inj hf ▸ hraised
  · have := hs p f hf
    simp only at hreached ⊢
    omega

end Budget

/-! ## Spending it -/

/-- The relation that holds of all values: sizes and marks stay well formed whatever the values are. -/
theorem joinBounds_true (d : Domain V) : d.JoinBounds fun _ _ => True :=
  ⟨fun _ => trivial, fun _ _ _ _ _ => trivial, fun _ _ => trivial, fun _ _ => trivial⟩

section Spending

variable [DecidableEq V] {d : Domain V} {P : V → Prop} {rank : V → Nat} {height size locals : Nat}
  {s t : Progress V}

/-- Slots of a frame in a body of `size` positions. -/
def slotBound (size locals : Nat) : Nat := locals + 2 * size

theorem flowInto_spends (hd : d.RankedOn P rank height) (hwf : s.WellFormed size locals)
    (hs : s.Shallow size) (hall : s.Holds fun _ f => f.All P) {target : Nat} {f : Frame V}
    (htarget : target < size) (hlocals : f.locals.size = locals) (hf : f.All P)
    (hstack : f.stack.length ≤ 2 * reached size s.frames + 2) (h : s.flowInto d target f = .ok t) :
    Spends rank height size (slotBound size locals) s t := by
  have hinside : target < s.frames.size := hwf.frames ▸ htarget
  unfold flowInto at h
  split at h
  · rename_i hnone
    simp only [Except.ok.injEq] at h
    subst h
    have hreached := reached_set_lt f hwf.frames htarget hnone
    have hbound := reached_le size (s.frames.setIfInBounds target (some f))
    have hrank : f.rankSum rank ≤ slotBound size locals * height := by
      refine (rankSum_le hd hf).trans (Nat.mul_le_mul_right _ ?_)
      rw [hlocals, slotBound]
      omega
    refine ⟨budget_raise_le hwf.frames htarget ?_, ?_, falls_raise hinside ?_,
      shallow_raise hs hinside (by omega)⟩
    · rw [hnone, roomAt]
      omega
    · rw [enqueue_frames]
      exact hreached.le
    · intro g hg
      rw [hnone] at hg
      cases hg
  · rename_i mine hmine
    obtain ⟨joined, hjoin, h⟩ := bind_eq_ok.mp h
    split_ifs at h with heq
    · simp only [pure, Except.pure, Except.ok.injEq] at h
      exact h ▸ .refl hs
    · simp only [pure, Except.pure, Except.ok.injEq] at h
      subst h
      have hmineLocals := hwf.locals target mine hmine
      have hfallen := fallen_join hd (hall target mine hmine) hf (hmineLocals.trans hlocals.symm) hjoin
      have hreached := reached_set_le size joined hinside
      have hmineStack := hs target mine hmine
      refine ⟨budget_raise_le hwf.frames htarget ?_, ?_, falls_raise hinside ?_,
        shallow_raise hs hinside ?_⟩
      · rw [hmine]
        exact hfallen.rankSum_lt heq
      · rw [enqueue_frames]
        exact hreached
      · intro g hg
        obtain rfl := Option.some.inj (hmine.symm.trans hg)
        exact hfallen
      · rw [join_stack_length hjoin]
        omega

theorem flowIntoAll_spends (hd : d.RankedOn P rank height) (hwf : s.WellFormed size locals)
    (hs : s.Shallow size) (hall : s.Holds fun _ f => f.All P) {targets : List Nat} {f : Frame V}
    (htargets : ∀ target ∈ targets, target < size) (hlocals : f.locals.size = locals) (hf : f.All P)
    (hstack : f.stack.length ≤ 2 * reached size s.frames + 2)
    (h : s.flowIntoAll d f targets = .ok t) : Spends rank height size (slotBound size locals) s t := by
  induction targets generalizing s with
  | nil =>
    simp only [flowIntoAll, Except.ok.injEq] at h
    exact h ▸ .refl hs
  | cons target rest ih =>
    obtain ⟨u, hu, h⟩ := bind_eq_ok.mp h
    rw [during_eq_ok] at hu
    have hspends := flowInto_spends hd hwf hs hall (htargets target (by simp)) hlocals hf hstack hu
    have hwf' := (flowInto_advance (joinBounds_true d).absorbs hwf (htargets target (by simp)) hlocals
      hu).1.wellFormed
    have hreached := hspends.reached
    exact hspends.trans (ih hwf' hspends.shallow (hall.flowInto (joinKeeps_all hd.keeps) hf hu)
      (fun q hq => htargets q (List.mem_cons_of_mem _ hq)) (by omega) h)

theorem flowIntoHandlers_spends (hd : d.RankedOn P rank height) (hwf : s.WellFormed size locals)
    (hs : s.Shallow size) (hall : s.Holds fun _ f => f.All P) {edges : List HandlerEdge} {f : Frame V}
    (hedges : ∀ edge ∈ edges, edge.handler < size) (hlocals : f.locals.size = locals)
    (hf : ∀ edge ∈ edges, (f.caught d edge.catchType).All P)
    (h : s.flowIntoHandlers d f edges = .ok t) :
    Spends rank height size (slotBound size locals) s t := by
  induction edges generalizing s with
  | nil =>
    simp only [flowIntoHandlers, Except.ok.injEq] at h
    exact h ▸ .refl hs
  | cons edge rest ih =>
    obtain ⟨u, hu, h⟩ := bind_eq_ok.mp h
    rw [during_eq_ok] at hu
    have hhandler := hedges edge (by simp)
    have hcaughtLocals : (f.caught d edge.catchType).locals.size = locals := hlocals
    have hcaughtStack : (f.caught d edge.catchType).stack.length ≤ 2 * reached size s.frames + 2 := by
      simp [caught]
    have hcaught := hf edge (by simp)
    have hspends := flowInto_spends hd hwf hs hall hhandler hcaughtLocals hcaught hcaughtStack hu
    have hwf' := (flowInto_advance (joinBounds_true d).absorbs hwf hhandler hcaughtLocals hu).1.wellFormed
    exact hspends.trans (ih hwf' hspends.shallow (hall.flowInto (joinKeeps_all hd.keeps) hcaught hu)
      (fun e he => hedges e (List.mem_cons_of_mem _ he)) (fun e he => hf e (List.mem_cons_of_mem _ he)) h)

/-- A visit spends of the budget. -/
theorem visit_spends (hd : d.RankedOn P rank height) {flow : Flow}
    (hinside : ∀ p move, flow.Allows p move → move.target < flow.size) (hkeeps : KeepsAll d flow P)
    (hwf : s.WellFormed flow.size locals) (hs : s.Shallow flow.size)
    (hall : s.Holds fun _ f => f.All P) {position : Nat} (h : s.visit d flow position = .ok t) :
    Spends rank height flow.size (slotBound flow.size locals) s t := by
  unfold visit at h
  split at h
  · simp only [Except.ok.injEq] at h
    exact h ▸ .refl hs
  · rename_i before hbefore
    obtain ⟨after, hafter, h⟩ := bind_eq_ok.mp h
    rw [during_eq_ok] at hafter
    obtain ⟨targets, htargets, h⟩ := bind_eq_ok.mp h
    obtain ⟨u, hu, h⟩ := bind_eq_ok.mp h
    have hlocals := hwf.locals position before hbefore
    have hafterLocals := (execute_locals_size hafter).trans hlocals
    have hstack : after.stack.length ≤ 2 * reached flow.size s.frames + 2 := by
      have := execute_stack_length_le hafter
      have := hs position before hbefore
      omega
    have hinside' : ∀ q ∈ targets, q < flow.size :=
      fun q hq => hinside position (.next q) ⟨targets, htargets, hq⟩
    have hbeforeAll : before.All P := hall position before hbefore
    have hafterAll :=
      hkeeps.executes position (hwf.frames ▸ lt_of_getD hbefore) before after hbeforeAll hafter
    have hspends := flowIntoAll_spends hd hwf hs hall hinside' hafterLocals hafterAll hstack hu
    have hwf' := (flowIntoAll_advance (joinBounds_true d).absorbs hwf hinside' hafterLocals hu).1.wellFormed
    split_ifs at h with hreal
    · exact hspends.trans (flowIntoHandlers_spends hd hwf' hspends.shallow
        (hall.flowIntoAll (joinKeeps_all hd.keeps) (fun _ _ => hafterAll) hu)
        (fun edge hedge => hinside position (.raise edge) ⟨hreal, hedge⟩) hlocals
        (fun edge hedge => hbeforeAll.caught (hkeeps.raises position edge hedge)) h)
    · simp only [pure, Except.pure, Except.ok.injEq] at h
      exact h ▸ hspends

/-- What is true of every state of the analysis. -/
structure Sound (flow : Flow) (locals : Nat) (P : V → Prop) (s : Progress V) : Prop where
  wellFormed : s.WellFormed flow.size locals
  shallow : s.Shallow flow.size
  all : s.Holds fun _ f => f.All P

/-- Taking the first position off the queue and visiting it spends of the budget, by at least one. -/
theorem Sound.visit (hd : d.RankedOn P rank height) {flow : Flow}
    (hinside : ∀ p move, flow.Allows p move → move.target < flow.size) (hkeeps : KeepsAll d flow P)
    (hs : s.Sound flow locals P) {position : Nat} {queue : List Nat} (hqueue : s.queue = position :: queue)
    (h : (s.dequeue position queue).visit d flow position = .ok t) :
    t.Sound flow locals P ∧ Grows (Fallen rank) s.frames t.frames ∧
      budget rank height flow.size (slotBound flow.size locals) t <
        budget rank height flow.size (slotBound flow.size locals) s := by
  have hwf := dequeue_wellFormed hs.wellFormed hqueue
  have hspends := visit_spends hd hinside hkeeps hwf hs.shallow hs.all h
  refine ⟨⟨(visit_advance (joinBounds_true d).absorbs hinside hwf h).1.wellFormed, hspends.shallow,
    hkeeps.visit hd.keeps (s := s.dequeue position queue) hwf.frames hs.all h⟩, hspends.falls, ?_⟩
  have hpaid := hspends.budget
  simp only [budget, dequeue] at hpaid ⊢
  rw [hqueue, List.length_cons]
  omega

end Spending

/-- A new analysis has no more visits ahead than `visitBound`. -/
theorem budget_start_le {d : Domain V} {P : V → Prop} {rank : V → Nat} {height : Nat}
    (hd : d.RankedOn P rank height) {size : Nat} {entry : Frame V} (hsize : 0 < size)
    (hall : entry.All P) (hstack : entry.stack = []) :
    budget rank height size (slotBound size entry.locals.size) (start size entry) ≤
      visitBound height size entry.locals.size := by
  have hroom : room rank height size (slotBound size entry.locals.size) (start size entry).frames ≤
      size * (slotBound size entry.locals.size * height + 1) := by
    have hsum := Finset.sum_le_card_nsmul (Finset.range size)
      (fun p => roomAt rank height (slotBound size entry.locals.size)
        ((start size entry).frames.getD p none))
      (slotBound size entry.locals.size * height + 1) (by
        intro p _
        rw [start, getD_set (by simpa using hsize)]
        split_ifs
        · have hrank := rankSum_le hd hall
          have hle : (entry.locals.size + entry.stack.length) * height ≤
              slotBound size entry.locals.size * height := by
            refine Nat.mul_le_mul_right _ ?_
            rw [hstack, slotBound, List.length_nil]
            omega
          rw [roomAt]
          omega
        · simp only [Array.getD_eq_getD_getElem?, Array.getElem?_replicate]
          split_ifs <;> simp [roomAt])
    rwa [Finset.card_range, Nat.nsmul_eq_mul] at hsum
  have hbound : size * (slotBound size entry.locals.size * height + 1) ≤
      size * (1 + (entry.locals.size + 2 * size + 2) * (height + 1)) := by
    refine Nat.mul_le_mul_left _ ?_
    have : slotBound size entry.locals.size * height ≤
        (entry.locals.size + 2 * size + 2) * (height + 1) :=
      Nat.mul_le_mul (by rw [slotBound]; omega) (by omega)
    omega
  have hqueue : (start size entry).queue.length = 1 := rfl
  rw [budget, visitBound, hqueue]
  omega

theorem start_shallow {size : Nat} {entry : Frame V} (hsize : 0 < size)
    (hstack : entry.stack = []) : (start size entry).Shallow size := by
  intro p f hf
  rw [start, getD_set (by simpa using hsize)] at hf
  split_ifs at hf with heq
  · rw [← Option.some.inj hf, hstack]
    simp
  · simp only [Array.getD_eq_getD_getElem?, Array.getElem?_replicate] at hf
    split_ifs at hf <;> simp at hf

theorem start_sound {flow : Flow} {P : V → Prop} {entry : Frame V} (hsize : 0 < flow.size)
    (hstack : entry.stack = []) (hall : entry.All P) :
    (start flow.size entry).Sound flow entry.locals.size P :=
  ⟨start_wellFormed hsize, start_shallow hsize hstack, start_holds hsize hall⟩

end Progress

end Frame

end DirectCall
