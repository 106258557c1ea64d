import DirectCall.Proofs.Flow.Survive
import DirectCall.Proofs.Frame.Arrive

/-!
# Bodies that take the place of another one

A body fits if some property of the frames certifies its flow (`fits_of_certificate`): joins keep it, equally high
stacks meet, and control can go on to frames that have it. If a body takes the place of another one position by
position, with stages of its own that lead from what comes to a position to what comes to the next (`Staged`), the
stages are such a property, so it fits (`Staged.fits`).
-/

namespace DirectCall

namespace Frame

section Certificates

variable {V : Type} [DecidableEq V] {d : Domain V} {flow : Flow} {Q : Nat → Frame V → Prop}

/-- Frames that an analysis can do with: those of one position are equally high and joined within the property,
and each can go on to such frames. -/
structure Certificate (d : Domain V) (flow : Flow) (Q : Nat → Frame V → Prop) : Prop where
  joins : Progress.JoinKeeps d Q
  level : ∀ p f g, Q p f → Q p g → f.stack.length = g.stack.length
  proceeds : ∀ p f, Q p f → ∃ after targets,
    f.execute d (flow.idAt p) (flow.insnAt p) = .ok after ∧ flow.successors p = .ok targets
  moves : ∀ p f move g, Q p f → flow.Allows p move → f.pass d flow p move = .ok g → Q move.target g

namespace Progress

omit [DecidableEq V] in
/-- Stacks meet if all that is there and all that arrives has the property. -/
theorem meet_of_level (hlevel : ∀ p f g, Q p f → Q p g → f.stack.length = g.stack.length)
    {there : Nat → Option Nat} {arrivals : List (Nat × Nat)}
    (hthere : ∀ p height, there p = some height → ∃ f, Q p f ∧ f.stack.length = height)
    (harrive : ∀ arrival ∈ arrivals, ∃ f, Q arrival.1 f ∧ f.stack.length = arrival.2) :
    Meet there arrivals := by
  induction arrivals generalizing there with
  | nil => trivial
  | cons arrival rest ih =>
    obtain ⟨f, hf, hheight⟩ := harrive arrival List.mem_cons_self
    refine ⟨fun height hthere' => ?_, ih (fun p height hp => ?_) fun a ha => harrive a (List.mem_cons_of_mem _ ha)⟩
    · obtain ⟨g, hg, rfl⟩ := hthere _ height hthere'
      rw [← hheight, hlevel _ g f hg hf]
    · rw [Function.update_apply] at hp
      split_ifs at hp with heq
      · obtain rfl := Option.some.inj hp
        exact ⟨f, heq ▸ hf, hheight⟩
      · exact hthere p height hp

/-- In every state that the solver comes to, the frames have the property. -/
theorem Comes.holds {s t : Progress V} (h : Certificate d flow Q) (hcomes : Comes d flow s t) (hs : s.Holds Q) :
    t.Holds Q := by
  induction hcomes with
  | refl => exact hs
  | @visit s t u position queue _ ht _ ih =>
    refine ih (Holds.visit (s := s.dequeue position queue) h.joins hs (fun before move g hbefore => ?_) ht)
    exact h.moves position before move g (hs position before hbefore)

theorem canGoOn_of_certificate (h : Certificate d flow Q) {s : Progress V} (hs : s.Holds Q) : s.CanGoOn d flow := by
  intro p before _ hbefore
  have hQ := hs p before hbefore
  obtain ⟨after, targets, hafter, htargets⟩ := h.proceeds p before hQ
  refine ⟨after, targets, hafter, htargets, meet_of_level h.level (fun q height hq => ?_) fun arrival harrival => ?_⟩
  · obtain ⟨f, hf, rfl⟩ := Option.map_eq_some_iff.mp hq
    exact ⟨f, hs q f hf, rfl⟩
  · rcases List.mem_append.mp harrival with harrival | harrival
    · obtain ⟨q, hq, rfl⟩ := List.mem_map.mp harrival
      exact ⟨after, h.moves p before (.next q) after hQ ⟨targets, htargets, hq⟩ hafter, rfl⟩
    · split_ifs at harrival with hreal
      · obtain ⟨edge, hedge, rfl⟩ := List.mem_map.mp harrival
        exact ⟨_, h.moves p before (.raise edge) _ hQ ⟨hreal, hedge⟩ rfl, rfl⟩
      · cases harrival

end Progress

/-- A body fits if the frame in which the method starts has a property that certifies its flow. -/
theorem fits_of_certificate {m : MethodSig} {body : Body} (hflow : Flow.ofBody body = .ok flow)
    (hpos : 0 < flow.size) (h : Certificate d flow Q)
    (hstart : ∀ entry, Frame.entry d m body.maxLocals = .ok entry → Q 0 entry) : Fits d m body :=
  ⟨flow, hflow, hpos, fun entry _ hentry hcomes => Progress.canGoOn_of_certificate h
    (hcomes.holds h (Progress.start_holds hpos (hstart entry hentry)))⟩

end Certificates

variable {V : Type}

/-- A node with what is true of the frames ahead of it. -/
abbrev Stage (V : Type) := NodeId × (Frame V → Prop)

/-- The frames with the property are equally high, and their joins have it as well. -/
def Steady (d : Domain V) (P : Frame V → Prop) : Prop :=
  ∀ f g, P f → P g → f.stack.length = g.stack.length ∧ ∀ joined, f.join d g = .ok joined → P joined

/-- The frame has the property of the first stage, or another one if there is no stage. -/
def Lands (stages : List (Stage V)) (next : Frame V → Prop) (f : Frame V) : Prop :=
  match stages with
  | [] => next f
  | stage :: _ => stage.2 f

/-- The frames with the property of a stage pass its node: the property is steady, and what comes of the frame has
the property of the next stage, of the jumps that the node makes, and of the handlers that it raises to. -/
structure Stage.Passes [DecidableEq V] (d : Domain V) (list : InsnList) (jumps : NodeId → Frame V → Prop)
    (raises : Frame V → Prop) (stage : Stage V) (next : Frame V → Prop) : Prop where
  steady : Steady d stage.2
  goesOn : ∀ f, stage.2 f → ∃ after, f.execute d stage.1 (list.get stage.1) = .ok after ∧
    (∀ target ∈ (list.get stage.1).targets, jumps target after) ∧
      ((list.get stage.1).endsFlow = false → next after)
  raises : (list.get stage.1).isReal = true → ∀ f, stage.2 f → raises f

/-- Frames pass one stage after the other. -/
def Stage.PassesAll [DecidableEq V] (d : Domain V) (list : InsnList) (jumps : NodeId → Frame V → Prop)
    (raises : Frame V → Prop) : List (Stage V) → (Frame V → Prop) → Prop
  | [], _ => True
  | stage :: back, next =>
    stage.Passes d list jumps raises (Lands back next) ∧ PassesAll d list jumps raises back next

/-- Stages for the nodes in the place of a position: who comes to the position comes to the first stage, and who
passes the last one to the next position. -/
structure IsUnit [DecidableEq V] (d : Domain V) (list : InsnList) (jumps : NodeId → Frame V → Prop)
    (raises known next : Frame V → Prop) (nodes : List NodeId) (stages : List (Stage V)) : Prop where
  nodes : stages.map (·.1) = nodes
  enters : ∀ f, known f → Lands stages next f
  passes : Stage.PassesAll d list
    (fun target f => (∃ there ∈ stages, there.1 = target ∧ there.2 f) ∨ jumps target f) raises stages next

/-- The frame is known where the handlers that cover a position start. -/
def Raises (d : Domain V) (body : Body) (known : Nat → Frame V → Prop) (q : Nat) (f : Frame V) : Prop :=
  ∀ r ∈ body.regions, body.insns.rank r.start ≤ q → q < body.insns.rank r.stop →
    known (body.insns.rank r.handler) (f.caught d r.catchType)

/-- One body takes the place of another one position by position: `nodes` are now where a position was, and
`known` is true of the frames that come to where it was. What regions and jumps name stays alone. -/
structure Staged [DecidableEq V] (d : Domain V) (body body' : Body) (known : Nat → Frame V → Prop)
    (nodes : Nat → List NodeId) : Prop where
  regions : body'.regions = body.regions
  order : body'.insns.order.toList = (List.range body.insns.size).flatMap nodes
  marks : ∀ r ∈ body.regions, ∀ id, id = r.start ∨ id = r.stop ∨ id = r.handler →
    body.insns.rank id < body.insns.size ∧ nodes (body.insns.rank id) = [id]
  inside : ∀ q f, known q f → q < body.insns.size
  units : ∀ q < body.insns.size, ∃ stages, IsUnit d body'.insns
    (fun target f => ∃ t < body.insns.size, nodes t = [target] ∧ known t f) (Raises d body known q)
      (known q) (known (q + 1)) (nodes q) stages

section Rows

variable {α : Type} {units : Nat → List α}

/-- Number of elements ahead of a unit. -/
def offset (units : Nat → List α) (q : Nat) : Nat := ((List.range q).flatMap units).length

theorem flatMap_range_succ (units : Nat → List α) (n : Nat) :
    (List.range (n + 1)).flatMap units = (List.range n).flatMap units ++ units n := by
  rw [List.range_succ, List.flatMap_append, List.flatMap_singleton]

theorem offset_succ (units : Nat → List α) (q : Nat) : offset units (q + 1) = offset units q + (units q).length := by
  rw [offset, flatMap_range_succ, List.length_append, offset]

theorem offset_le_offset {q r : Nat} (h : q ≤ r) : offset units q ≤ offset units r := by
  induction h with
  | refl => exact le_rfl
  | step _ ih =>
    rw [offset_succ]
    omega

theorem getElem?_row {n q : Nat} (hq : q < n) {front back : List α} {x : α} (h : units q = front ++ x :: back) :
    ((List.range n).flatMap units)[offset units q + front.length]? = some x := by
  induction n with
  | zero => omega
  | succ n ih =>
    rw [flatMap_range_succ]
    rcases Nat.lt_succ_iff_lt_or_eq.mp hq with hq | rfl
    · have hx := ih hq
      rwa [List.getElem?_append_left (List.getElem?_eq_some_iff.mp hx).1]
    · rw [offset, h, List.getElem?_append_right (Nat.le_add_right _ _), Nat.add_sub_cancel_left,
        List.getElem?_append_right le_rfl, Nat.sub_self, List.getElem?_cons_zero]

theorem exists_unit {n i : Nat} {x : α} (h : ((List.range n).flatMap units)[i]? = some x) :
    ∃ q < n, ∃ front back, units q = front ++ x :: back ∧ i = offset units q + front.length := by
  induction n with
  | zero => simp at h
  | succ n ih =>
    rw [flatMap_range_succ] at h
    by_cases hi : i < ((List.range n).flatMap units).length
    · rw [List.getElem?_append_left hi] at h
      obtain ⟨q, hq, hunit⟩ := ih h
      exact ⟨q, hq.trans (Nat.lt_succ_self n), hunit⟩
    · rw [List.getElem?_append_right (Nat.le_of_not_lt hi)] at h
      obtain ⟨hlt, rfl⟩ := List.getElem?_eq_some_iff.mp h
      refine ⟨n, Nat.lt_succ_self n, (units n).take (i - offset units n),
        (units n).drop (i - offset units n + 1), ?_, ?_⟩
      · rw [offset, List.getElem_cons_drop, List.take_append_drop]
      · rw [List.length_take, offset]
        omega

end Rows

section Stages

variable [DecidableEq V] {d : Domain V} {list : InsnList} {jumps jumps' : NodeId → Frame V → Prop}
  {raises known next next' : Frame V → Prop} {front back stages : List (Stage V)} {nodes : List NodeId}

theorem Stage.PassesAll.at {stage : Stage V} (h : PassesAll d list jumps raises (front ++ stage :: back) next) :
    stage.Passes d list jumps raises (Lands back next) := by
  induction front with
  | nil => exact h.1
  | cons _ _ ih => exact ih h.2

omit [DecidableEq V] in
theorem lands_append : Lands (front ++ back) next = Lands front (Lands back next) := by
  cases front <;> rfl

omit [DecidableEq V] in
theorem Lands.mono (hnext : ∀ f, next f → next' f) {f : Frame V} (h : Lands stages next f) :
    Lands stages next' f := by
  cases stages with
  | nil => exact hnext f h
  | cons => exact h

theorem Stage.PassesAll.append (h : PassesAll d list jumps raises front (Lands back next))
    (h' : PassesAll d list jumps raises back next) : PassesAll d list jumps raises (front ++ back) next := by
  induction front with
  | nil => exact h'
  | cons stage front ih => exact ⟨lands_append ▸ h.1, ih h.2⟩

theorem Stage.PassesAll.mono (h : PassesAll d list jumps raises stages next)
    (hjumps : ∀ target f, jumps target f → jumps' target f) (hnext : ∀ f, next f → next' f) :
    PassesAll d list jumps' raises stages next' := by
  induction stages with
  | nil => trivial
  | cons stage back ih =>
    refine ⟨⟨h.1.steady, fun f hf => ?_, h.1.raises⟩, ih h.2⟩
    obtain ⟨after, hafter, htargets, hgoes⟩ := h.1.goesOn f hf
    exact ⟨after, hafter, fun target htarget => hjumps _ _ (htargets target htarget),
      fun hends => (hgoes hends).mono hnext⟩

/-- Code ahead of a unit that comes back to what is known there makes a unit with it. -/
theorem IsUnit.ahead (h : IsUnit d list jumps raises known next nodes stages)
    (hlands : ∀ f, known f → Lands front known f)
    (hpasses : Stage.PassesAll d list (fun target f => (∃ there ∈ front, there.1 = target ∧ there.2 f) ∨
      jumps target f) raises front known) :
    IsUnit d list jumps raises known next (front.map (·.1) ++ nodes) (front ++ stages) where
  nodes := by rw [List.map_append, h.nodes]
  enters f hf := lands_append ▸ (hlands f hf).mono h.enters
  passes := by
    refine (hpasses.mono (fun target f => Or.imp_left ?_) h.enters).append
      (h.passes.mono (fun target f => Or.imp_left ?_) fun _ => id)
    · rintro ⟨there, hthere, heq⟩
      exact ⟨there, List.mem_append_left _ hthere, heq⟩
    · rintro ⟨there, hthere, heq⟩
      exact ⟨there, List.mem_append_right _ hthere, heq⟩

end Stages

variable [DecidableEq V] {d : Domain V} {body body' : Body} {known : Nat → Frame V → Prop}
  {nodes : Nat → List NodeId} {units : Nat → List (Stage V)}

/-- Stages for the nodes of all positions. -/
def IsUnits (d : Domain V) (body body' : Body) (known : Nat → Frame V → Prop) (nodes : Nat → List NodeId)
    (units : Nat → List (Stage V)) : Prop :=
  ∀ q < body.insns.size, IsUnit d body'.insns
    (fun target f => ∃ t < body.insns.size, nodes t = [target] ∧ known t f) (Raises d body known q)
      (known q) (known (q + 1)) (nodes q) (units q)

namespace Staged

/-- The property of the stage at a position of the new body. -/
def At (body : Body) (units : Nat → List (Stage V)) (i : Nat) (f : Frame V) : Prop :=
  ∃ stage, ((List.range body.insns.size).flatMap units)[i]? = some stage ∧ stage.2 f

variable (h : Staged d body body' known nodes) (hunits : IsUnits d body body' known nodes units)

include h hunits

/-- A frame that comes to where a position was lands on the next stage. -/
theorem lands {q : Nat} {f : Frame V} (hf : known q f) : At body units (offset units q) f := by
  have hq := h.inside q f hf
  induction hn : body.insns.size - q generalizing q with
  | zero => omega
  | succ n ih =>
    have henters := (hunits q hq).enters f hf
    cases hunit : units q with
    | nil =>
      rw [hunit] at henters
      have hnext := ih henters (h.inside _ f henters) (by omega)
      rwa [offset_succ, hunit, List.length_nil, Nat.add_zero] at hnext
    | cons stage back =>
      rw [hunit] at henters
      exact ⟨stage, getElem?_row hq (show units q = [] ++ stage :: back from hunit), henters⟩

/-- Where the stages of a unit end, the next unit begins. -/
theorem lands_next {q : Nat} (hq : q < body.insns.size) {front back : List (Stage V)} {stage : Stage V}
    (hunit : units q = front ++ stage :: back) {f : Frame V} (hf : Lands back (known (q + 1)) f) :
    At body units (offset units q + front.length + 1) f := by
  cases back with
  | nil =>
    have hnext := h.lands hunits (q := q + 1) hf
    rwa [offset_succ, hunit, List.length_append, List.length_singleton, ← Nat.add_assoc] at hnext
  | cons next back =>
    refine ⟨next, ?_, hf⟩
    have hrow := getElem?_row hq (show units q = (front ++ [stage]) ++ next :: back by simpa using hunit)
    rwa [List.length_append, List.length_singleton, ← Nat.add_assoc] at hrow

theorem order_eq : body'.insns.order.toList = ((List.range body.insns.size).flatMap units).map (·.1) := by
  rw [h.order, List.map_flatMap]
  exact List.flatMap_congr fun q hq => ((hunits q (List.mem_range.mp hq)).nodes).symm

theorem idAt_eq {i : Nat} {stage : Stage V} (hi : ((List.range body.insns.size).flatMap units)[i]? = some stage) :
    i < body'.insns.size ∧ body'.insns.idAt i = stage.1 := by
  have hget : body'.insns.order[i]? = some stage.1 := by
    rw [← Array.getElem?_toList, h.order_eq hunits, List.getElem?_map, hi, Option.map_some]
  exact ⟨(Array.getElem?_eq_some_iff.mp hget).1, by rw [InsnList.idAt, hget, Option.getD_some]⟩

theorem rank_eq (hproper : body'.insns.Proper) {i : Nat} {stage : Stage V}
    (hi : ((List.range body.insns.size).flatMap units)[i]? = some stage) :
    stage.1 ∈ body'.insns.order ∧ body'.insns.rank stage.1 = i := by
  obtain ⟨hlt, hid⟩ := h.idAt_eq hunits hi
  exact ⟨InsnList.mem_order.mpr ⟨i, hlt, hid.symm⟩, hid ▸ hproper.rank_idAt hlt⟩

theorem rank_mark (hproper : body'.insns.Proper) {r : Region} (hr : r ∈ body.regions) {id : NodeId}
    (hid : id = r.start ∨ id = r.stop ∨ id = r.handler) :
    id ∈ body'.insns.order ∧ body'.insns.rank id = offset units (body.insns.rank id) := by
  obtain ⟨hlt, hnodes⟩ := h.marks r hr id hid
  rw [← (hunits _ hlt).nodes] at hnodes
  obtain ⟨stage, back, hunit, rfl, _⟩ := List.map_eq_cons_iff.mp hnodes
  exact h.rank_eq hunits hproper (getElem?_row hlt (show units _ = [] ++ stage :: back from hunit))

theorem exists_flow (hproper : body'.insns.Proper) : ∃ flow, Flow.ofBody body' = .ok flow := by
  refine (Flow.exists_ofBody_iff hproper).mpr fun r hr => ?_
  rw [h.regions] at hr
  exact ⟨(h.rank_mark hunits hproper hr (.inl rfl)).1, (h.rank_mark hunits hproper hr (.inr (.inl rfl))).1,
    (h.rank_mark hunits hproper hr (.inr (.inr rfl))).1⟩

/-- A jump leads to a stage. -/
theorem exists_jump (hproper : body'.insns.Proper) {flow : Flow} (hflow : Flow.ofBody body' = .ok flow) {q : Nat}
    (hq : q < body.insns.size) {target : NodeId} {f : Frame V}
    (htarget : (∃ there ∈ units q, there.1 = target ∧ there.2 f) ∨
      ∃ t < body.insns.size, nodes t = [target] ∧ known t f) :
    ∃ j, flow.positions.find target = .ok j ∧ At body units j f := by
  have hthere : ∃ t < body.insns.size, ∃ there ∈ units t, there.1 = target ∧ there.2 f := by
    refine htarget.elim (fun hthere => ⟨q, hq, hthere⟩) ?_
    rintro ⟨t, ht, hnodes, hknown⟩
    rw [← (hunits t ht).nodes] at hnodes
    obtain ⟨there, back, hunit, rfl, _⟩ := List.map_eq_cons_iff.mp hnodes
    have henters := (hunits t ht).enters f hknown
    rw [hunit] at henters
    exact ⟨t, ht, there, by simp [hunit], rfl, henters⟩
  obtain ⟨t, ht, there, hmem, rfl, hf⟩ := hthere
  obtain ⟨front, back, hunit⟩ := List.append_of_mem hmem
  have hrow := getElem?_row ht hunit
  exact ⟨_, (Flow.find_eq_ok hproper hflow).mpr (h.rank_eq hunits hproper hrow), there, hrow, hf⟩

/-- A position of the new body is in the unit of an old one. -/
theorem exists_stage {flow : Flow} (hflow : Flow.ofBody body' = .ok flow) {i : Nat} {f : Frame V}
    (hf : At body units i f) :
    ∃ q < body.insns.size, ∃ front stage back, units q = front ++ stage :: back ∧
      i = offset units q + front.length ∧ stage.2 f ∧ flow.insnAt i = body'.insns.get stage.1 ∧
        flow.idAt i = stage.1 ∧ stage.Passes d body'.insns (fun target f => (∃ there ∈ units q, there.1 = target ∧
          there.2 f) ∨ ∃ t < body.insns.size, nodes t = [target] ∧ known t f) (Raises d body known q)
            (Lands back (known (q + 1))) := by
  obtain ⟨stage, hi, hf⟩ := hf
  obtain ⟨q, hq, front, back, hunit, heq⟩ := exists_unit hi
  obtain ⟨_, hid⟩ := h.idAt_eq hunits hi
  have hpasses := (hunits q hq).passes
  rw [hunit] at hpasses
  exact ⟨q, hq, front, stage, back, hunit, heq, hf, by rw [Flow.insnAt_of_ofBody hflow, InsnList.insnAt, hid],
    by rw [Flow.idAt_of_ofBody hflow, hid], by rw [hunit]; exact hpasses.at⟩

/-- Every frame at a stage can be executed, and control can go on. -/
theorem proceeds (hproper : body'.insns.Proper) {flow : Flow} (hflow : Flow.ofBody body' = .ok flow) {i : Nat}
    {f : Frame V} (hf : At body units i f) : ∃ after targets,
      f.execute d (flow.idAt i) (flow.insnAt i) = .ok after ∧ flow.successors i = .ok targets := by
  obtain ⟨q, hq, front, stage, back, hunit, rfl, hf, hinsn, hid, hpasses⟩ := h.exists_stage hunits hflow hf
  obtain ⟨after, hafter, hjumps, hnext⟩ := hpasses.goesOn f hf
  obtain ⟨targets, htargets⟩ : ∃ targets, flow.targetsAt (offset units q + front.length) = .ok targets := by
    refine exists_mapM_ok fun target htarget => ?_
    rw [hinsn] at htarget
    obtain ⟨j, hj, _⟩ := h.exists_jump hunits hproper hflow hq (hjumps target htarget)
    exact ⟨j, hj⟩
  refine ⟨after, ?_⟩
  rw [hinsn, hid]
  cases hends : (body'.insns.get stage.1).endsFlow with
  | true => exact ⟨targets, hafter, bind_eq_ok.mpr ⟨targets, htargets, by rw [hinsn, hends]; rfl⟩⟩
  | false =>
    obtain ⟨next, hnext, _⟩ := h.lands_next hunits hq hunit (hnext hends)
    have hlt := (h.idAt_eq hunits hnext).1
    rw [← Flow.size_of_ofBody hflow] at hlt
    refine ⟨targets ++ [offset units q + front.length + 1], hafter, bind_eq_ok.mpr ⟨targets, htargets, ?_⟩⟩
    rw [hinsn, hends, if_neg Bool.false_ne_true, if_pos hlt]
    rfl

/-- What a stage hands on lands on a stage. -/
theorem at_next (hproper : body'.insns.Proper) {flow : Flow} (hflow : Flow.ofBody body' = .ok flow) {i target : Nat}
    {f g : Frame V} (hf : At body units i f) (hmove : flow.Allows i (.next target))
    (hpass : f.execute d (flow.idAt i) (flow.insnAt i) = .ok g) : At body units target g := by
  obtain ⟨q, hq, front, stage, back, hunit, rfl, hf, hinsn, hid, hpasses⟩ := h.exists_stage hunits hflow hf
  obtain ⟨after, hafter, hjumps, hnext⟩ := hpasses.goesOn f hf
  rw [hinsn, hid] at hpass
  obtain rfl := Except.ok.inj (hafter.symm.trans hpass)
  obtain ⟨targets, htargets, hmem⟩ := hmove
  obtain ⟨jumps, hfound, htargets⟩ := bind_eq_ok.mp htargets
  have hjump : ∀ t ∈ jumps, At body units t after := by
    intro t ht
    obtain ⟨id, hid, hfind⟩ := mem_mapM_ok hfound ht
    rw [hinsn] at hid
    obtain ⟨j, hj, hat⟩ := h.exists_jump hunits hproper hflow hq (hjumps id hid)
    obtain rfl := Except.ok.inj (hfind.symm.trans hj)
    exact hat
  rw [hinsn] at htargets
  split_ifs at htargets with hends hlt
  · obtain rfl := Except.ok.inj htargets
    exact hjump target hmem
  · obtain rfl := Except.ok.inj htargets
    rcases List.mem_append.mp hmem with hmem | hmem
    · exact hjump target hmem
    · obtain rfl := List.mem_singleton.mp hmem
      exact h.lands_next hunits hq hunit (hnext (by simpa using hends))

/-- What a stage raises lands where a handler starts. -/
theorem at_raise (hproper : body'.insns.Proper) {flow : Flow} (hflow : Flow.ofBody body' = .ok flow) {i : Nat}
    {edge : HandlerEdge} {f : Frame V} (hf : At body units i f) (hmove : flow.Allows i (.raise edge)) :
    At body units edge.handler (f.caught d edge.catchType) := by
  obtain ⟨q, hq, front, stage, back, hunit, rfl, hf, hinsn, _, hpasses⟩ := h.exists_stage hunits hflow hf
  obtain ⟨hreal, hedge⟩ := hmove
  rw [hinsn] at hreal
  obtain ⟨r, hr, start, stop, handler, hstart, hstop, hhandler, hle, hlt, rfl⟩ :=
    (Flow.mem_handlersAt_iff hflow).mp hedge
  rw [h.regions] at hr
  have hfind : ∀ {id : NodeId} {p : Nat}, (id = r.start ∨ id = r.stop ∨ id = r.handler) →
      body'.insns.positions.find id = .ok p → p = offset units (body.insns.rank id) := by
    intro id p hid hp
    rw [← (hproper.find_eq_ok.mp hp).2, (h.rank_mark hunits hproper hr hid).2]
  obtain rfl := hfind (.inl rfl) hstart
  obtain rfl := hfind (.inr (.inl rfl)) hstop
  obtain rfl := hfind (.inr (.inr rfl)) hhandler
  have hlength : front.length < (units q).length := by simp [hunit]
  -- Regions begin and end with a unit, so a stage is in one exactly if its position was.
  have hahead : body.insns.rank r.start ≤ q := by
    by_contra hbehind
    have hoffset : offset units (q + 1) ≤ offset units (body.insns.rank r.start) := offset_le_offset (by omega)
    rw [offset_succ] at hoffset
    omega
  have hbehind : q < body.insns.rank r.stop := by
    by_contra hahead
    have hoffset : offset units (body.insns.rank r.stop) ≤ offset units q := offset_le_offset (by omega)
    omega
  exact h.lands hunits (hpasses.raises hreal f hf r hr hahead hbehind)

/-- The stages certify the flow of the new body. -/
theorem certificate (hproper : body'.insns.Proper) {flow : Flow} (hflow : Flow.ofBody body' = .ok flow) :
    Certificate d flow (At body units) := by
  have hsteady : ∀ {i : Nat} {f g : Frame V}, At body units i f → At body units i g →
      f.stack.length = g.stack.length ∧ ∀ joined, f.join d g = .ok joined → At body units i joined := by
    rintro i f g ⟨stage, hi, hf⟩ ⟨stage', hi', hg⟩
    obtain rfl := Option.some.inj (hi.symm.trans hi')
    obtain ⟨q, hq, front, back, hunit, _⟩ := exists_unit hi
    obtain ⟨hheights, hjoins⟩ := (hunit ▸ (hunits q hq).passes).at.steady f g hf hg
    exact ⟨hheights, fun joined hjoined => ⟨stage, hi, hjoins joined hjoined⟩⟩
  constructor
  case joins => exact fun i f g joined hf hg hjoined => (hsteady hf hg).2 joined hjoined
  case level => exact fun i f g hf hg => (hsteady hf hg).1
  case proceeds => exact fun i f hf => h.proceeds hunits hproper hflow hf
  case moves =>
    intro i f move g hf hmove hpass
    cases move with
    | next target => exact h.at_next hunits hproper hflow hf hmove hpass
    | raise edge =>
      obtain rfl := Except.ok.inj hpass
      exact h.at_raise hunits hproper hflow hf hmove

omit hunits

/-- The new body fits. -/
theorem fits (hproper : body'.insns.Proper) {m : MethodSig} {entry : Frame V}
    (hentry : Frame.entry d m body'.maxLocals = .ok entry) (hstart : known 0 entry) : Fits d m body' := by
  obtain ⟨units, hunits⟩ : ∃ units, IsUnits d body body' known nodes units := by
    choose! units hunits using h.units
    exact ⟨units, hunits⟩
  obtain ⟨flow, hflow⟩ := h.exists_flow hunits hproper
  have hat : At body units 0 entry := h.lands hunits hstart
  obtain ⟨stage, hstage, _⟩ := id hat
  refine fits_of_certificate hflow ?_ (h.certificate hunits hproper hflow) fun entry' hentry' => ?_
  · rw [Flow.size_of_ofBody hflow]
    exact (h.idAt_eq hunits hstage).1
  · exact Except.ok.inj (hentry.symm.trans hentry') ▸ hat

end Staged

end Frame

end DirectCall
