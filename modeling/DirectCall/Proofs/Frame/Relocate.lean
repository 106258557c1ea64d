import DirectCall.Proofs.Frame.Settles

/-!
# The analysis of code that has moved

Where the instructions of one flow stand in another one, with successors and handlers moved along, the
solver does there what it does in the first flow (`Alike.visit`). So it comes to the same frames, in as many
visits (`Alike.settle`). The queue decides which position comes next, so it has to be the same queue, up to
the move; marks follow from it (`Tidy`).
-/

namespace DirectCall.Frame

variable {V : Type}

namespace Progress

/-! ## Visits -/

section Visit

variable [DecidableEq V] {d : Domain V} {flow : Flow} {s t : Progress V} {position : Nat}

theorem visit_of_none (hnone : s.frames.getD position none = none) : s.visit d flow position = .ok s := by
  rw [visit, hnone]

/-- What a visit of a position that was reached does. -/
theorem visit_eq_ok {before : Frame V} (hbefore : s.frames.getD position none = some before) :
    s.visit d flow position = .ok t ↔ ∃ after targets u,
      before.execute d (flow.idAt position) (flow.insnAt position) = .ok after ∧
        flow.successors position = .ok targets ∧ s.flowIntoAll d after targets = .ok u ∧
          (if (flow.insnAt position).isReal then u.flowIntoHandlers d before (flow.handlersAt position)
            else .ok u) = .ok t := by
  simp only [visit, hbefore, bind_eq_ok, during_eq_ok, exists_and_left]
  rfl

end Visit

/-! ## Tidy states -/

/-- A position is marked exactly if it is queued, and queued once. -/
structure Tidy (size : Nat) (s : Progress V) : Prop where
  frames : s.frames.size = size
  queued : s.queued.size = size
  inside : ∀ p ∈ s.queue, p < size
  marked : ∀ p, s.queued.getD p false = true ↔ p ∈ s.queue
  once : s.queue.Nodup

/-- The frame where one path meets others. -/
def meet (d : Domain V) (there : Option (Frame V)) (f : Frame V) : Except Fault (Frame V) :=
  match there with
  | none => .ok f
  | some mine => mine.join d f

/-- Puts a frame at a position, which is queued if the frame is a new one. -/
def raise [DecidableEq V] (s : Progress V) (target : Nat) (f : Frame V) : Progress V :=
  if s.frames.getD target none = some f then s
  else { s with frames := s.frames.setIfInBounds target (some f) }.enqueue target

theorem getD_set_bool {marks : Array Bool} {target p : Nat} {b : Bool} (htarget : target < marks.size) :
    (marks.setIfInBounds target b).getD p false = if target = p then b else marks.getD p false := by
  simp only [Array.getD_eq_getD_getElem?, Array.getElem?_setIfInBounds]
  by_cases heq : target = p
  · simp [heq, heq ▸ htarget]
  · simp [heq]

section Tidy

variable {size target p : Nat} {s t : Progress V} {f : Frame V}

theorem start_tidy {entry : Frame V} (hsize : 0 < size) : (start size entry).Tidy size := by
  refine ⟨by simp [start], by simp [start], fun p hp => ?_, fun p => ?_, List.nodup_singleton 0⟩
  · obtain rfl := List.mem_singleton.mp hp
    exact hsize
  · rw [start, getD_set_bool (by simpa using hsize), List.mem_singleton, eq_comm (a := p)]
    split_ifs with heq
    · simp [heq]
    · simp [heq, Array.getD_eq_getD_getElem?, Array.getElem?_replicate]
      split_ifs <;> simp

theorem start_getD {entry : Frame V} (hsize : 0 < size) (p : Nat) :
    (start size entry).frames.getD p none = if 0 = p then some entry else none := by
  rw [start, getD_set (by simpa using hsize), Array.getD_eq_getD_getElem?, Array.getElem?_replicate]
  by_cases hp : p < size
  · rw [if_pos hp, Option.getD_some]
  · rw [if_neg hp, Option.getD_none]

theorem Tidy.dequeue (hs : s.Tidy size) {queue : List Nat} (hqueue : s.queue = p :: queue) :
    (s.dequeue p queue).Tidy size := by
  have hnodup := hs.once
  rw [hqueue, List.nodup_cons] at hnodup
  have hp : p < size := hs.inside p (by rw [hqueue]; exact List.mem_cons_self)
  refine ⟨hs.frames, by simpa [Progress.dequeue] using hs.queued, fun q hq => ?_, fun q => ?_, hnodup.2⟩
  · exact hs.inside q (by rw [hqueue]; exact List.mem_cons_of_mem p hq)
  · show (s.queued.setIfInBounds p false).getD q false = true ↔ q ∈ queue
    rw [getD_set_bool (hs.queued ▸ hp)]
    by_cases heq : p = q
    · rw [if_pos heq]
      exact ⟨fun hfalse => absurd hfalse Bool.false_ne_true, fun hq => absurd (heq ▸ hq) hnodup.1⟩
    · rw [if_neg heq, hs.marked q, hqueue, List.mem_cons]
      exact ⟨fun h => h.resolve_left (Ne.symm heq), .inr⟩

theorem Tidy.enqueue_queue (hs : s.Tidy size) (p : Nat) :
    (s.enqueue p).queue = if p ∈ s.queue then s.queue else p :: s.queue := by
  unfold enqueue
  by_cases hp : p ∈ s.queue
  · rw [if_pos ((hs.marked p).mpr hp), if_pos hp]
  · rw [if_neg fun hmark => hp ((hs.marked p).mp hmark), if_neg hp]

theorem Tidy.enqueue (hs : s.Tidy size) (hp : p < size) : (s.enqueue p).Tidy size := by
  unfold Progress.enqueue
  split_ifs with hmark
  · exact hs
  · have hout : p ∉ s.queue := fun hmem => hmark ((hs.marked p).mpr hmem)
    refine ⟨hs.frames, by simpa using hs.queued, fun q hq => ?_, fun q => ?_,
      List.nodup_cons.mpr ⟨hout, hs.once⟩⟩
    · rcases List.mem_cons.mp hq with rfl | hq
      · exact hp
      · exact hs.inside q hq
    · show (s.queued.setIfInBounds p true).getD q false = true ↔ q ∈ p :: s.queue
      rw [getD_set_bool (hs.queued ▸ hp), List.mem_cons, ← hs.marked q]
      by_cases heq : p = q
      · simp [heq]
      · simp [heq, Ne.symm heq]

variable [DecidableEq V]

theorem Tidy.raise (hs : s.Tidy size) (htarget : target < size) (f : Frame V) :
    (s.raise target f).Tidy size := by
  unfold Progress.raise
  split_ifs
  · exact hs
  · have hset : Tidy size { s with frames := s.frames.setIfInBounds target (some f) } :=
      ⟨by simpa using hs.frames, hs.queued, hs.inside, hs.marked, hs.once⟩
    exact hset.enqueue htarget

theorem raise_getD (htarget : target < s.frames.size) (p : Nat) :
    (s.raise target f).frames.getD p none = if target = p then some f else s.frames.getD p none := by
  unfold raise
  by_cases hsame : s.frames.getD target none = some f
  · rw [if_pos hsame]
    by_cases heq : target = p
    · rw [if_pos heq, ← heq, hsame]
    · rw [if_neg heq]
  · rw [if_neg hsame, enqueue_frames, getD_set htarget]

theorem Tidy.raise_queue (hs : s.Tidy size) (target : Nat) (f : Frame V) :
    (s.raise target f).queue =
      if s.frames.getD target none = some f ∨ target ∈ s.queue then s.queue else target :: s.queue := by
  unfold Progress.raise
  have hset : Tidy size { s with frames := s.frames.setIfInBounds target (some f) } :=
    ⟨by simpa using hs.frames, hs.queued, hs.inside, hs.marked, hs.once⟩
  by_cases hsame : s.frames.getD target none = some f
  · rw [if_pos hsame, if_pos (.inl hsame)]
  · rw [if_neg hsame, hset.enqueue_queue target]
    by_cases hmem : target ∈ s.queue
    · rw [if_pos hmem, if_pos (.inr hmem)]
    · rw [if_neg hmem, if_neg (not_or.mpr ⟨hsame, hmem⟩)]

theorem flowInto_eq_ok {d : Domain V} : s.flowInto d target f = .ok t ↔
    ∃ g, meet d (s.frames.getD target none) f = .ok g ∧ t = s.raise target g := by
  unfold flowInto meet raise
  cases hthere : s.frames.getD target none with
  | none => simp [eq_comm]
  | some mine =>
    simp only [bind_eq_ok]
    refine exists_congr fun joined => and_congr_right fun _ => ?_
    by_cases heq : joined = mine
    · rw [if_pos heq, if_pos (congrArg some heq.symm)]
      exact ⟨fun h => (Except.ok.inj h).symm, fun h => congrArg Except.ok h.symm⟩
    · rw [if_neg heq, if_neg fun hsome => heq (Option.some.inj hsome).symm]
      exact ⟨fun h => (Except.ok.inj h).symm, fun h => congrArg Except.ok h.symm⟩

end Tidy

/-! ## What a visit touches -/

/-- Only positions with the property `T` are queued anew, or have another frame. -/
structure Touches (T : Nat → Prop) (s t : Progress V) : Prop where
  queue : ∀ p ∈ t.queue, p ∈ s.queue ∨ T p
  frames : ∀ p, ¬ T p → t.frames.getD p none = s.frames.getD p none

namespace Touches

variable {T : Nat → Prop} {s t u : Progress V}

theorem refl (T : Nat → Prop) (s : Progress V) : Touches T s s := ⟨fun _ => .inl, fun _ _ => rfl⟩

theorem trans (h : Touches T s t) (h' : Touches T t u) : Touches T s u :=
  ⟨fun p hp => (h'.queue p hp).elim (h.queue p) .inr, fun p hp => (h'.frames p hp).trans (h.frames p hp)⟩

theorem mono {T' : Nat → Prop} (h : Touches T s t) (hT : ∀ p, T p → T' p) : Touches T' s t :=
  ⟨fun p hp => (h.queue p hp).imp_right (hT p), fun p hp => h.frames p fun hmem => hp (hT p hmem)⟩

variable [DecidableEq V] {d : Domain V} {flow : Flow}

theorem flowInto {target : Nat} (hT : T target) {f : Frame V} (h : s.flowInto d target f = .ok t) :
    Touches T s t := by
  obtain ⟨g, _, rfl⟩ := flowInto_eq_ok.mp h
  unfold raise
  split_ifs
  · exact .refl T s
  · refine ⟨fun p hp => ?_, fun p hp => ?_⟩
    · unfold enqueue at hp
      split_ifs at hp
      · exact .inl hp
      · exact (List.mem_cons.mp hp).elim (fun heq => .inr (heq ▸ hT)) .inl
    · rw [enqueue_frames]
      simp only [Array.getD_eq_getD_getElem?]
      rw [Array.getElem?_setIfInBounds_ne]
      rintro rfl
      exact hp hT

theorem flowIntoAll {targets : List Nat} (hT : ∀ q ∈ targets, T q) {f : Frame V}
    (h : s.flowIntoAll d f targets = .ok t) : Touches T s t := by
  induction targets generalizing s with
  | nil => exact Except.ok.inj h ▸ .refl T s
  | cons target rest ih =>
    rw [List.forall_mem_cons] at hT
    obtain ⟨u, hu, h⟩ := bind_eq_ok.mp h
    exact (flowInto hT.1 (during_eq_ok.mp hu)).trans (ih hT.2 h)

theorem flowIntoHandlers {edges : List HandlerEdge} (hT : ∀ edge ∈ edges, T edge.handler) {f : Frame V}
    (h : s.flowIntoHandlers d f edges = .ok t) : Touches T s t := by
  induction edges generalizing s with
  | nil => exact Except.ok.inj h ▸ .refl T s
  | cons edge rest ih =>
    rw [List.forall_mem_cons] at hT
    obtain ⟨u, hu, h⟩ := bind_eq_ok.mp h
    exact (flowInto hT.1 (during_eq_ok.mp hu)).trans (ih hT.2 h)

/-- A visit only touches the positions that control may pass on to. -/
theorem visit {position : Nat} (h : s.visit d flow position = .ok t) :
    Touches (fun q => ∃ move, flow.Allows position move ∧ move.target = q) s t := by
  cases hbefore : s.frames.getD position none with
  | none =>
    rw [visit_of_none hbefore] at h
    exact Except.ok.inj h ▸ .refl _ s
  | some before =>
    obtain ⟨after, targets, u, _, hsuccessors, hu, h⟩ := (visit_eq_ok hbefore).mp h
    refine (flowIntoAll (fun q hq => ⟨.next q, ⟨targets, hsuccessors, hq⟩, rfl⟩) hu).trans ?_
    split_ifs at h with hreal
    · exact flowIntoHandlers (fun edge hedge => ⟨.raise edge, ⟨hreal, hedge⟩, rfl⟩) h
    · exact Except.ok.inj h ▸ .refl _ u

end Touches

/-! ## States that are alike -/

/-- A new place for each position; one with the property `P` shares its place with no other. -/
structure Relocation (size size' : Nat) (φ : Nat → Nat) (P : Nat → Prop) : Prop where
  inside : ∀ p, P p → p < size ∧ φ p < size'
  alone : ∀ p q, P p → q < size → φ q = φ p → q = p

/-- The queue has moved, and the frames of the positions with the property `P`. -/
structure Alike (size size' : Nat) (φ : Nat → Nat) (P : Nat → Prop) (s t : Progress V) : Prop where
  tidy : s.Tidy size
  tidy' : t.Tidy size'
  queue : t.queue = s.queue.map φ
  frames : ∀ p, P p → t.frames.getD (φ p) none = s.frames.getD p none

/-- An instruction has moved, and its successors and handlers with it. -/
structure SameAt (f e : Flow) (φ : Nat → Nat) (p : Nat) : Prop where
  node : e.idAt (φ p) = f.idAt p
  insn : e.insnAt (φ p) = f.insnAt p
  successors : ∀ targets, f.successors p = .ok targets → e.successors (φ p) = .ok (targets.map φ)
  handlers : (f.insnAt p).isReal = true →
    e.handlersAt (φ p) = (f.handlersAt p).map fun edge => ⟨φ edge.handler, edge.catchType⟩

/-- What control may pass on to from the new place has moved there. -/
theorem SameAt.exists_of_allows {f e : Flow} {φ : Nat → Nat} {p : Nat} (h : SameAt f e φ p) {targets : List Nat}
    (htargets : f.successors p = .ok targets) {move : Move} (hmove : e.Allows (φ p) move) :
    ∃ move', f.Allows p move' ∧ φ move'.target = move.target := by
  cases move with
  | next q =>
    obtain ⟨targets', htargets', hq⟩ := hmove
    obtain rfl := Except.ok.inj ((h.successors targets htargets).symm.trans htargets')
    obtain ⟨q, hmem, rfl⟩ := List.mem_map.mp hq
    exact ⟨.next q, ⟨targets, htargets, hmem⟩, rfl⟩
  | raise edge =>
    obtain ⟨hreal, hedge⟩ := hmove
    rw [h.insn] at hreal
    rw [h.handlers hreal] at hedge
    obtain ⟨edge, hmem, rfl⟩ := List.mem_map.mp hedge
    exact ⟨.raise edge, ⟨hreal, hmem⟩, rfl⟩

namespace Alike

variable {size size' p : Nat} {φ : Nat → Nat} {P : Nat → Prop} {s s' t : Progress V} {f e : Flow}

theorem dequeue (h : Alike size size' φ P s t) {queue : List Nat} (hqueue : s.queue = p :: queue) :
    Alike size size' φ P (s.dequeue p queue) (t.dequeue (φ p) (queue.map φ)) := by
  have hqueue' : t.queue = φ p :: queue.map φ := by rw [h.queue, hqueue, List.map_cons]
  exact ⟨h.tidy.dequeue hqueue, h.tidy'.dequeue hqueue', rfl, h.frames⟩

theorem start (hφ : Relocation size size' φ P) (hP : P 0) (hfirst : φ 0 = 0) (entry : Frame V) :
    Alike size size' φ P (start size entry) (start size' entry) := by
  obtain ⟨hinside, hinside'⟩ := hφ.inside 0 hP
  have hpos : 0 < size' := by omega
  refine ⟨start_tidy hinside, start_tidy hpos, by simp [Progress.start, hfirst], fun p hp => ?_⟩
  rw [start_getD hpos, start_getD hinside]
  by_cases heq : 0 = p
  · rw [if_pos heq, if_pos (by rw [← heq, hfirst])]
  · rw [if_neg heq, if_neg fun hsame => heq (hφ.alone p 0 hp hinside (hfirst.trans hsame))]

variable [DecidableEq V] {d : Domain V}

theorem raise (hφ : Relocation size size' φ P) (h : Alike size size' φ P s t) (hp : P p) (g : Frame V) :
    Alike size size' φ P (s.raise p g) (t.raise (φ p) g) := by
  obtain ⟨hinside, hinside'⟩ := hφ.inside p hp
  refine ⟨h.tidy.raise hinside g, h.tidy'.raise hinside' g, ?_, fun q hq => ?_⟩
  · have hmem : φ p ∈ t.queue ↔ p ∈ s.queue := by
      rw [h.queue, List.mem_map]
      constructor
      · rintro ⟨q, hq, heq⟩
        exact hφ.alone p q hp (h.tidy.inside q hq) heq ▸ hq
      · exact fun hmem => ⟨p, hmem, rfl⟩
    rw [h.tidy.raise_queue, h.tidy'.raise_queue, h.frames p hp]
    by_cases hstays : s.frames.getD p none = some g ∨ p ∈ s.queue
    · rw [if_pos hstays, if_pos (hstays.imp_right hmem.mpr), h.queue]
    · rw [if_neg hstays, if_neg fun h' => hstays (h'.imp_right hmem.mp), h.queue, List.map_cons]
  · rw [raise_getD (h.tidy'.frames.symm ▸ hinside'), raise_getD (h.tidy.frames.symm ▸ hinside),
      h.frames q hq]
    by_cases heq : p = q
    · rw [if_pos heq, if_pos (congrArg φ heq)]
    · rw [if_neg heq, if_neg fun hsame => heq (hφ.alone q p hq hinside hsame)]

theorem flowInto (hφ : Relocation size size' φ P) (h : Alike size size' φ P s t) (hp : P p) {g : Frame V}
    (hs : s.flowInto d p g = .ok s') :
    ∃ t', t.flowInto d (φ p) g = .ok t' ∧ Alike size size' φ P s' t' := by
  obtain ⟨joined, hmeet, rfl⟩ := flowInto_eq_ok.mp hs
  exact ⟨_, flowInto_eq_ok.mpr ⟨joined, by rw [h.frames p hp, hmeet], rfl⟩, h.raise hφ hp joined⟩

theorem flowIntoAll (hφ : Relocation size size' φ P) (h : Alike size size' φ P s t) {targets : List Nat}
    (htargets : ∀ q ∈ targets, P q) {g : Frame V} (hs : s.flowIntoAll d g targets = .ok s') :
    ∃ t', t.flowIntoAll d g (targets.map φ) = .ok t' ∧ Alike size size' φ P s' t' := by
  induction targets generalizing s t with
  | nil =>
    obtain rfl := Except.ok.inj hs
    exact ⟨t, rfl, h⟩
  | cons target rest ih =>
    rw [List.forall_mem_cons] at htargets
    obtain ⟨u, hu, hs⟩ := bind_eq_ok.mp hs
    obtain ⟨v, hv, h⟩ := h.flowInto hφ htargets.1 (during_eq_ok.mp hu)
    obtain ⟨t', ht', h⟩ := ih h htargets.2 hs
    exact ⟨t', bind_eq_ok.mpr ⟨v, during_eq_ok.mpr hv, ht'⟩, h⟩

theorem flowIntoHandlers (hφ : Relocation size size' φ P) (h : Alike size size' φ P s t)
    {edges : List HandlerEdge} (hedges : ∀ edge ∈ edges, P edge.handler) {g : Frame V}
    (hs : s.flowIntoHandlers d g edges = .ok s') :
    ∃ t', t.flowIntoHandlers d g (edges.map fun edge => ⟨φ edge.handler, edge.catchType⟩) = .ok t' ∧
      Alike size size' φ P s' t' := by
  induction edges generalizing s t with
  | nil =>
    obtain rfl := Except.ok.inj hs
    exact ⟨t, rfl, h⟩
  | cons edge rest ih =>
    rw [List.forall_mem_cons] at hedges
    obtain ⟨u, hu, hs⟩ := bind_eq_ok.mp hs
    obtain ⟨v, hv, h⟩ := h.flowInto hφ hedges.1 (during_eq_ok.mp hu)
    obtain ⟨t', ht', h⟩ := ih h hedges.2 hs
    exact ⟨t', bind_eq_ok.mpr ⟨v, during_eq_ok.mpr hv, ht'⟩, h⟩

/-- A visit of an instruction that has moved does what the visit of the instruction does. -/
theorem visit (hφ : Relocation size size' φ P) (h : Alike size size' φ P s t) (hp : P p)
    (hsame : SameAt f e φ p) (htargets : ∀ move, f.Allows p move → P move.target)
    (hs : s.visit d f p = .ok s') : ∃ t', t.visit d e (φ p) = .ok t' ∧ Alike size size' φ P s' t' := by
  cases hbefore : s.frames.getD p none with
  | none =>
    rw [visit_of_none hbefore] at hs
    obtain rfl := Except.ok.inj hs
    exact ⟨t, visit_of_none ((h.frames p hp).trans hbefore), h⟩
  | some before =>
    obtain ⟨after, targets, u, hafter, hsuccessors, hu, hs⟩ := (visit_eq_ok hbefore).mp hs
    obtain ⟨v, hv, h'⟩ := h.flowIntoAll hφ (fun q hq => htargets (.next q) ⟨targets, hsuccessors, hq⟩) hu
    obtain ⟨t', ht', h'⟩ : ∃ t', (if (e.insnAt (φ p)).isReal then
        v.flowIntoHandlers d before (e.handlersAt (φ p)) else .ok v) = .ok t' ∧
          Alike size size' φ P s' t' := by
      rw [hsame.insn]
      split_ifs at hs ⊢ with hreal
      · rw [hsame.handlers hreal]
        exact h'.flowIntoHandlers hφ (fun edge hedge => htargets (.raise edge) ⟨hreal, hedge⟩) hs
      · obtain rfl := Except.ok.inj hs
        exact ⟨v, rfl, h'⟩
    refine ⟨t', (visit_eq_ok ((h.frames p hp).trans hbefore)).mpr ⟨after, targets.map φ, v, ?_,
      hsame.successors targets hsuccessors, hv, ht'⟩, h'⟩
    rw [hsame.node, hsame.insn]
    exact hafter

/-- A run over positions that have moved comes to the same frames. Only what the run may come to has to
move along. -/
theorem settle (hφ : Relocation size size' φ P) {Q : Nat → Prop} (hQ : ∀ p, Q p → P p)
    (hsame : ∀ p, Q p → SameAt f e φ p) (htargets : ∀ p move, Q p → f.Allows p move → Q move.target)
    (h : Alike size size' φ P s t) (hqueue : ∀ p ∈ s.queue, Q p) {visits : Nat} {frames : Frames V}
    (hs : settle d f visits s = .ok frames) :
    ∃ frames', Progress.settle d e visits t = .ok frames' ∧
      ∀ p, P p → frames'.getD (φ p) none = frames.getD p none := by
  induction visits generalizing s t with
  | zero =>
    rw [Progress.settle] at hs
    split_ifs at hs with hempty
    obtain rfl := Except.ok.inj hs
    refine ⟨t.frames, ?_, h.frames⟩
    rw [Progress.settle, h.queue, List.isEmpty_iff.mp hempty]
    rfl
  | succ visits ih =>
    rw [Progress.settle] at hs
    split at hs
    · rename_i hempty
      obtain rfl := Except.ok.inj hs
      refine ⟨t.frames, ?_, h.frames⟩
      rw [Progress.settle, h.queue, hempty, List.map_nil]
    · rename_i p queue hcons
      obtain ⟨u, hu, hs⟩ := bind_eq_ok.mp hs
      rw [hcons, List.forall_mem_cons] at hqueue
      obtain ⟨v, hv, h'⟩ := (h.dequeue hcons).visit hφ (hQ p hqueue.1) (hsame p hqueue.1)
        (fun move hmove => hQ _ (htargets p move hqueue.1 hmove)) hu
      have hnext : ∀ q ∈ u.queue, Q q := by
        intro q hq
        rcases (Touches.visit hu).queue q hq with hold | ⟨move, hmove, rfl⟩
        · exact hqueue.2 q hold
        · exact htargets p move hqueue.1 hmove
      obtain ⟨frames', hframes, hagree⟩ := ih h' hnext hs
      refine ⟨frames', ?_, hagree⟩
      rw [Progress.settle, h.queue, hcons]
      exact bind_eq_ok.mpr ⟨v, hv, hframes⟩

end Alike

end Progress

end DirectCall.Frame
