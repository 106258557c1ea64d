import DirectCall.Proofs.Frame.Walk

/-!
# Three instructions for two

Between two instructions of a flow stand marks only, and control comes to the marks and to the second one from
the first one alone. In another flow the marks stand ahead of three instructions, which together do what
the two do (`ThreeForTwo`). The solver then stays in step on both (`InStep`): what it does at the first of the
two it does at the first of the three, and what it does at the second one it does at the other two. So it
comes to the same frames at all other positions (`ThreeForTwo.settle`).

A join has to be that of a semilattice, so that each of the frames in between is one that the first instruction
was visited with (`InStep.below`, `InStep.below'`).
-/

namespace DirectCall

variable {V : Type}

namespace Frame

section Order

variable {d : Domain V} {f g h : Frame V}

theorem Rel.keeps_trans (hd : d.Semilattice) (hfg : f.Rel d.Keeps g) (hgh : g.Rel d.Keeps h) :
    f.Rel d.Keeps h :=
  Rel.trans (R := d.Keeps) (S := d.Keeps) (T := d.Keeps) (fun _ _ _ => hd.trans) hfg hgh

theorem forall₂_antisymm (hd : d.Semilattice) {vs ws : List V} (h : List.Forall₂ d.Keeps vs ws)
    (h' : List.Forall₂ d.Keeps ws vs) : vs = ws := by
  induction h with
  | nil => rfl
  | cons hhead _ ih =>
    cases h' with
    | cons hhead' hrest' => rw [hd.antisymm hhead hhead', ih hrest']

theorem Rel.keeps_antisymm (hd : d.Semilattice) (h : f.Rel d.Keeps g) (h' : g.Rel d.Keeps f) : f = g := by
  have hlocals := forall₂_antisymm hd h.locals h'.locals
  have hstack := forall₂_antisymm hd h.stack h'.stack
  cases f
  cases g
  rw [Frame.mk.injEq, ← Array.toList_inj]
  exact ⟨hlocals, hstack⟩

/-- A frame meets one that it keeps as it is. -/
theorem Rel.join_of_keeps (hd : d.Semilattice) (h : f.Rel d.Keeps g) : g.join d f = .ok f := by
  have hzip : ∀ {vs ws : List V}, List.Forall₂ d.Keeps vs ws → List.zipWith d.join ws vs = vs := by
    intro vs ws hrel
    induction hrel with
    | nil => rfl
    | cons hhead _ ih => rw [List.zipWith_cons_cons, ih, hd.comm, hhead]
  have hlocals : Array.zipWith d.join g.locals f.locals = f.locals := by
    rw [← Array.toList_inj, Array.toList_zipWith, hzip h.locals]
  rw [join, if_pos h.stack_length.symm, hlocals, hzip h.stack]

theorem Rel.keeps_refl (hd : d.Semilattice) (f : Frame V) : f.Rel d.Keeps f := rel_refl (R := d.Keeps) hd.idem f

theorem join_self (hd : d.Semilattice) (f : Frame V) : f.join d f = .ok f := (Rel.keeps_refl hd f).join_of_keeps hd

theorem yields_of_keeps (hd : d.Semilattice) {there : Option (Frame V)} (hdiffers : there ≠ some f)
    (h : ∀ g, there = some g → f.Rel d.Keeps g) : Yields d there f := by
  refine ⟨hdiffers, ?_⟩
  cases there with
  | none => rfl
  | some g => exact (h g rfl).join_of_keeps hd

end Order

namespace Progress

/-! ## Where positions move -/

/-- The new place of a position. The marks have none, and the second instruction shares that of what follows
the first one. -/
def shifted (a k p : Nat) : Nat := if p ≤ a then p else if p ≤ a + k + 1 then a + k + 1 else p + 1

/-- Not behind the first of the two instructions, up to the second one. -/
def Outside (size a k p : Nat) : Prop := p < size ∧ (p ≤ a ∨ a + k + 1 < p)

theorem relocation_shifted {size a k : Nat} (hinside : a + k + 1 < size) :
    Relocation size (size + 1) (shifted a k) (Outside size a k) := by
  refine ⟨fun p hp => ⟨hp.1, ?_⟩, fun p q hp hq heq => ?_⟩
  · obtain ⟨hlt, hout⟩ := hp
    unfold shifted
    split_ifs <;> omega
  · obtain ⟨hlt, hout⟩ := hp
    unfold shifted at heq
    split_ifs at heq <;> omega

theorem shifted_self (a k : Nat) : shifted a k a = a := if_pos (Nat.le_refl a)

theorem shifted_next (a k : Nat) : shifted a k (a + 1) = a + k + 1 := by
  unfold shifted
  rw [if_neg (by omega), if_pos (by omega)]

theorem shifted_behind {a k p : Nat} (hp : a + k + 1 < p) : shifted a k p = p + 1 := by
  unfold shifted
  rw [if_neg (by omega), if_neg (by omega)]

/-- Nothing moves to the marks, nor to the last of the three instructions. -/
theorem shifted_ne {a k p q : Nat} (hq : a < q ∧ q ≤ a + k ∨ q = a + k + 2) : shifted a k p ≠ q := by
  unfold shifted
  split_ifs <;> omega

/-- Only what stands behind the first instruction, up to the second, moves to the second of the three. -/
theorem shifted_ne_middle {size a k p : Nat} (hp : Outside size a k p) : shifted a k p ≠ a + k + 1 := by
  obtain ⟨_, hout⟩ := hp
  unfold shifted
  split_ifs <;> omega

/-- Two instructions with `k` marks in between, the first one at `a`, have given way to three behind the
marks. The first of the two pushes `v`, and the second one has `w` for it; the first two of the three push `x`
and `y`, and the third one has `w` for both. -/
structure ThreeForTwo [DecidableEq V] (d : Domain V) (f e : Flow) (a k : Nat) (v w x y : V) : Prop where
  size : e.size = f.size + 1
  inside : a + k + 1 < f.size
  within : ∀ p move, f.Allows p move → move.target < f.size
  marks : ∀ i < k, (f.insnAt (a + 1 + i)).isReal = false ∧ (e.insnAt (a + i)).isReal = false
  pushes : ∀ g : Frame V, Takes d (f.insnAt a) g (g.push v)
  turns : ∀ g : Frame V, Takes d (f.insnAt (a + k + 1)) (g.push v) (g.push w)
  pushes' : ∀ g : Frame V, Takes d (e.insnAt (a + k)) g (g.push x)
  adds' : ∀ g : Frame V, Takes d (e.insnAt (a + k + 1)) (g.push x) ((g.push x).push y)
  turns' : ∀ g : Frame V, Takes d (e.insnAt (a + k + 2)) ((g.push x).push y) (g.push w)
  same : ∀ p < f.size, p < a ∨ a + k + 1 < p → SameAt f e (shifted a k) p
  enters : ∀ p < f.size, p < a ∨ a + k + 1 < p → ∀ move, f.Allows p move → Outside f.size a k move.target
  handlers : ∀ edge ∈ f.handlersAt a, Outside f.size a k edge.handler
  covered : f.handlersAt (a + k + 1) = f.handlersAt a
  covered' : ∀ i < 3, e.handlersAt (a + k + i) =
    (f.handlersAt a).map fun edge => ⟨shifted a k edge.handler, edge.catchType⟩

/-! ## States in step -/

/-- The solver is in step on both flows. The first instruction was last visited with the frame `last`, and the
second one with what became of the frame `done`. -/
structure InStep (d : Domain V) (f : Flow) (a k locals : Nat) (v x y : V) (s t : Progress V)
    (last done : Option (Frame V)) : Prop where
  wellFormed : s.WellFormed f.size locals
  alike : Alike f.size (f.size + 1) (shifted a k) (Outside f.size a k) s t
  outside : ∀ p ∈ s.queue, p ≤ a + 1 ∨ a + k + 1 < p
  entered : s.frames.getD (a + 1) none = last.map (·.push v)
  walked : ∀ p, a + 1 < p → p ≤ a + k + 1 → s.frames.getD p none = done.map (·.push v)
  walked' : ∀ p, a < p → p ≤ a + k → t.frames.getD p none = last
  entered' : t.frames.getD (a + k + 1) none = last.map (·.push x)
  added' : t.frames.getD (a + k + 2) none = done.map fun g => (g.push x).push y
  below : ∀ g, last = some g → Absorbs d.Keeps s.frames a g
  below' : ∀ g, done = some g → ∃ h, last = some h ∧ h.Rel d.Keeps g
  queued : a + 1 ∈ s.queue → done ≠ last

/-- The handlers of the first instruction have absorbed what it was last visited with. -/
def Raised (d : Domain V) (f : Flow) (a : Nat) (s : Progress V) (last : Option (Frame V)) : Prop :=
  ∀ g, last = some g → ∀ edge ∈ f.handlersAt a,
    Absorbs d.Keeps s.frames edge.handler (g.caught d edge.catchType)

section InStep

variable {d : Domain V} {f e : Flow} {a k locals : Nat} {v w x y : V} {s s' t t' : Progress V}
  {last done : Option (Frame V)}

theorem Raised.grow (h : Raised d f a s last) (hgrows : Grows (Outgrows d.Keeps) s.frames s'.frames) :
    Raised d f a s' last :=
  fun g hg edge hedge => (h g hg edge hedge).grow hgrows

theorem InStep.dequeue (h : InStep d f a k locals v x y s t last done) {p : Nat} {queue : List Nat}
    (hqueue : s.queue = p :: queue) :
    InStep d f a k locals v x y (s.dequeue p queue)
      (t.dequeue (shifted a k p) (queue.map (shifted a k))) last done where
  wellFormed := dequeue_wellFormed h.wellFormed hqueue
  alike := h.alike.dequeue hqueue
  outside q hq := h.outside q (by rw [hqueue]; exact List.mem_cons_of_mem p hq)
  entered := h.entered
  walked := h.walked
  walked' := h.walked'
  entered' := h.entered'
  added' := h.added'
  below := h.below
  below' := h.below'
  queued hmem := h.queued (by rw [hqueue]; exact List.mem_cons_of_mem p hmem)

/-- What happens elsewhere leaves the solver in step. -/
theorem InStep.spread (h : InStep d f a k locals v x y s t last done)
    (hadvance : Advance d.Keeps f.size locals s s')
    (halike : Alike f.size (f.size + 1) (shifted a k) (Outside f.size a k) s' t')
    (hs : Touches (Outside f.size a k) s s')
    (ht : Touches (fun q => ∃ p, Outside f.size a k p ∧ shifted a k p = q) t t') :
    InStep d f a k locals v x y s' t' last done := by
  have hstays : ∀ p, a < p → p ≤ a + k + 1 → s'.frames.getD p none = s.frames.getD p none := by
    intro p hlt hle
    refine hs.frames p fun hout => ?_
    obtain ⟨_, hout⟩ := hout
    omega
  have hstays' : ∀ q, a < q → q ≤ a + k + 2 → t'.frames.getD q none = t.frames.getD q none := by
    intro q hlt hle
    refine ht.frames q fun ⟨p, hp, hplace⟩ => ?_
    by_cases hmiddle : q = a + k + 1
    · exact shifted_ne_middle hp (hplace.trans hmiddle)
    · exact shifted_ne (by omega) hplace
  constructor
  case wellFormed => exact hadvance.wellFormed
  case alike => exact halike
  case outside =>
    intro p hp
    rcases hs.queue p hp with hold | hnew
    · exact h.outside p hold
    · obtain ⟨_, hout⟩ := hnew
      omega
  case entered => rw [hstays _ (by omega) (by omega), h.entered]
  case walked =>
    intro p hlt hle
    rw [hstays p (by omega) hle, h.walked p hlt hle]
  case walked' =>
    intro p hlt hle
    rw [hstays' p hlt (by omega), h.walked' p hlt hle]
  case entered' => rw [hstays' _ (by omega) (by omega), h.entered']
  case added' => rw [hstays' _ (by omega) (by omega), h.added']
  case below => exact fun g hg => (h.below g hg).grow hadvance.grows
  case below' => exact h.below'
  case queued =>
    intro hmem
    rcases hs.queue _ hmem with hold | hnew
    · exact h.queued hold
    · obtain ⟨_, hout⟩ := hnew
      omega

variable [DecidableEq V]

/-- Exceptions that the handlers know of already change nothing. -/
theorem Raised.flowIntoHandlers (hd : d.Semilattice) {g : Frame V} (h : Raised d f a s (some g)) (before : Frame V)
    (hbefore : before.locals = g.locals) : s.flowIntoHandlers d before (f.handlersAt a) = .ok s := by
  refine flowIntoHandlers_of_unmoved fun edge hedge => ?_
  have hsame : before.caught d edge.catchType = g.caught d edge.catchType := by rw [caught, hbefore, caught]
  rw [hsame]
  exact (h g rfl edge hedge).unmoved hd.absorptive (fun _ f _ => all_true f) (all_true _)

variable (h : ThreeForTwo d f e a k v w x y)
include h

theorem ThreeForTwo.relocation : Relocation f.size (f.size + 1) (shifted a k) (Outside f.size a k) :=
  relocation_shifted h.inside

theorem Raised.flowIntoHandlers' (hd : d.Semilattice) {g : Frame V} (hr : Raised d f a s (some g))
    (hframes : ∀ p, Outside f.size a k p → t.frames.getD (shifted a k p) none = s.frames.getD p none)
    (before : Frame V) (hbefore : before.locals = g.locals) {i : Nat} (hi : i < 3) :
    t.flowIntoHandlers d before (e.handlersAt (a + k + i)) = .ok t := by
  rw [h.covered' i hi]
  refine flowIntoHandlers_of_unmoved fun edge' hedge' => ?_
  obtain ⟨edge, hedge, rfl⟩ := List.mem_map.mp hedge'
  have hsame : before.caught d edge.catchType = g.caught d edge.catchType := by rw [caught, hbefore, caught]
  obtain ⟨g', hg', hjoin⟩ :=
    (hr g rfl edge hedge).unmoved hd.absorptive (fun _ f _ => all_true f) (all_true _)
  exact ⟨g', (hframes _ (h.handlers edge hedge)).trans hg', by rw [hsame]; exact hjoin⟩

/-- A visit of another instruction leaves the solver in step. -/
theorem InStep.visit_other (hd : d.Semilattice) (hi : InStep d f a k locals v x y s t last done)
    (hr : Raised d f a s last) {p : Nat} (hp : p < f.size) (hother : p < a ∨ a + k + 1 < p)
    (hs : s.visit d f p = .ok s') :
    ∃ t', t.visit d e (shifted a k p) = .ok t' ∧ InStep d f a k locals v x y s' t' last done ∧
      Raised d f a s' last := by
  have hplace : Outside f.size a k p := ⟨hp, by omega⟩
  have hsame := h.same p hp hother
  obtain ⟨t', ht', halike⟩ := hi.alike.visit h.relocation hplace hsame (h.enters p hp hother) hs
  obtain ⟨hadvance, _⟩ := visit_advance hd.absorptive.absorbs h.within hi.wellFormed hs
  have htouches : Touches (Outside f.size a k) s s' := by
    refine (Touches.visit hs).mono ?_
    rintro q ⟨move, hmove, rfl⟩
    exact h.enters p hp hother move hmove
  have htouches' : Touches (fun q => ∃ p, Outside f.size a k p ∧ shifted a k p = q) t t' := by
    cases hbefore : s.frames.getD p none with
    | none =>
      rw [visit_of_none ((hi.alike.frames p hplace).trans hbefore)] at ht'
      obtain rfl := Except.ok.inj ht'
      exact .refl _ t
    | some before =>
      obtain ⟨_, targets, _, _, htargets, _⟩ := (visit_eq_ok hbefore).mp hs
      refine (Touches.visit ht').mono ?_
      rintro q ⟨move, hmove, rfl⟩
      obtain ⟨move', hmove', heq⟩ := hsame.exists_of_allows htargets hmove
      exact ⟨move'.target, h.enters p hp hother move' hmove', heq⟩
  exact ⟨t', ht', hi.spread hadvance halike htouches htouches', hr.grow hadvance.grows⟩

/-- The first instruction is visited with the frame that it was last visited with. -/
theorem InStep.visit_first_again (hd : d.Semilattice) {g : Frame V}
    (hi : InStep d f a k locals v x y s t (some g) done) (hr : Raised d f a s (some g))
    (hs : s.visit d f a = .ok s') (hg : s.frames.getD a none = some g) :
    s' = s ∧ t.visit d e a = .ok t := by
  have hinside := h.inside
  have hg' : t.frames.getD a none = some g := by
    have hframes := hi.alike.frames a ⟨by omega, .inl (Nat.le_refl a)⟩
    rwa [shifted_self, hg] at hframes
  constructor
  · obtain ⟨_, g', hmeet, hs⟩ := (visit_takes (h.pushes g) hg).mp hs
    rw [hi.entered] at hmeet
    obtain rfl := Except.ok.inj ((join_self hd (g.push v)).symm.trans hmeet)
    rw [raise_of_same hi.entered, hr.flowIntoHandlers hd g rfl] at hs
    exact (Except.ok.inj hs).symm
  · -- With no mark in between, the first of the three instructions stands where the first of the two stood.
    by_cases hk : k = 0
    · subst hk
      have htakes : Takes d (e.insnAt a) g (g.push x) := h.pushes' g
      refine (visit_takes htakes hg').mpr ⟨by rw [h.size]; omega, g.push x, ?_, ?_⟩
      · rw [show t.frames.getD (a + 1) none = some (g.push x) from hi.entered']
        exact join_self hd (g.push x)
      · rw [raise_of_same (show t.frames.getD (a + 1) none = some (g.push x) from hi.entered')]
        exact hr.flowIntoHandlers' h hd hi.alike.frames g rfl (show 0 < 3 by omega)
    · have hnext : t.frames.getD (a + 1) none = some g := hi.walked' (a + 1) (by omega) (by omega)
      have hmeet : meet d (t.frames.getD (a + 1) none) g = .ok g := by
        rw [hnext]
        exact join_self hd g
      have hmark : (e.insnAt a).isReal = false := (h.marks 0 (by omega)).2
      rw [visit_mark hmark (by rw [h.size]; omega) hg' hmeet, raise_of_same hnext]

/-- A frame that is new comes to the position behind the first instruction, and to the one behind the first of the
three; there it has gone through the marks. -/
theorem InStep.enter (hd : d.Semilattice) {g : Frame V} {r : Progress V}
    (hi : InStep d f a k locals v x y s t last done) (hg : s.frames.getD a none = some g)
    (hrises : ∀ g', last = some g' → g.Rel d.Keeps g') (hlast : last ≠ some g) (htidy : r.Tidy (f.size + 1))
    (hqueue : r.queue = t.queue)
    (hframes : ∀ q, r.frames.getD q none = if a < q ∧ q ≤ a + k then some g else t.frames.getD q none) :
    InStep d f a k locals v x y (s.raise (a + 1) (g.push v)) (r.raise (a + k + 1) (g.push x)) (some g) done := by
  have hinside := h.inside
  have hyields : Yields d last g := yields_of_keeps hd hlast hrises
  have hentered : Yields d (s.frames.getD (a + 1) none) (g.push v) := by
    rw [hi.entered]
    exact hyields.push (hd.idem v)
  have hrnext : r.frames.getD (a + k + 1) none = last.map (·.push x) := by
    rw [hframes, if_neg (by omega), hi.entered']
  have hsframes : ∀ q, (s.raise (a + 1) (g.push v)).frames.getD q none =
      if a + 1 = q then some (g.push v) else s.frames.getD q none :=
    raise_getD (by rw [hi.alike.tidy.frames]; omega)
  have hrframes : ∀ q, (r.raise (a + k + 1) (g.push x)).frames.getD q none =
      if a + k + 1 = q then some (g.push x) else r.frames.getD q none :=
    raise_getD (by rw [htidy.frames]; omega)
  have hsqueue : (s.raise (a + 1) (g.push v)).queue = if a + 1 ∈ s.queue then s.queue else (a + 1) :: s.queue := by
    simp only [hi.alike.tidy.raise_queue, hentered.differs, false_or]
  have hrqueue : (r.raise (a + k + 1) (g.push x)).queue =
      if a + k + 1 ∈ t.queue then t.queue else (a + k + 1) :: t.queue := by
    simp only [htidy.raise_queue, hrnext, (hyields.push (hd.idem x)).differs, false_or, hqueue]
  have hqueued : a + k + 1 ∈ t.queue ↔ a + 1 ∈ s.queue := by
    rw [hi.alike.queue, List.mem_map]
    constructor
    · rintro ⟨p, hp, hplace⟩
      have hout := hi.outside p hp
      have hlt := hi.alike.tidy.inside p hp
      by_cases heq : p = a + 1
      · exact heq ▸ hp
      · exact absurd hplace (shifted_ne_middle (show Outside f.size a k p from ⟨hlt, by omega⟩))
    · exact fun hmem => ⟨a + 1, hmem, shifted_next a k⟩
  have hadvance := (flowInto_advance hd.absorptive.absorbs hi.wellFormed (show a + 1 < f.size by omega)
    (show (g.push v).locals.size = locals from hi.wellFormed.locals a g hg)
    (flowInto_eq_ok.mpr ⟨_, hentered.gives, rfl⟩)).1
  constructor
  case wellFormed => exact hadvance.wellFormed
  case alike =>
    refine ⟨hi.alike.tidy.raise (by omega) _, htidy.raise (by omega) _, ?_, fun p hp => ?_⟩
    · rw [hrqueue, hsqueue]
      by_cases hmem : a + 1 ∈ s.queue
      · rw [if_pos hmem, if_pos (hqueued.mpr hmem), hi.alike.queue]
      · rw [if_neg hmem, if_neg (hqueued.not.mpr hmem), hi.alike.queue, List.map_cons, shifted_next]
    · have hmarks : ¬(a < shifted a k p ∧ shifted a k p ≤ a + k) := fun hrow => shifted_ne (.inl hrow) rfl
      have hstays : a + 1 ≠ p := by
        rintro rfl
        obtain ⟨_, hout⟩ := hp
        omega
      rw [hrframes, if_neg (Ne.symm (shifted_ne_middle hp)), hframes, if_neg hmarks, hsframes, if_neg hstays,
        hi.alike.frames p hp]
  case outside =>
    intro p hp
    rw [hsqueue] at hp
    split_ifs at hp
    · exact hi.outside p hp
    · rcases List.mem_cons.mp hp with rfl | hp
      · exact .inl (Nat.le_refl _)
      · exact hi.outside p hp
  case entered => rw [hsframes, if_pos rfl, Option.map_some]
  case walked =>
    intro p hlt hle
    rw [hsframes, if_neg (by omega), hi.walked p hlt hle]
  case walked' =>
    intro p hlt hle
    rw [hrframes, if_neg (by omega), hframes, if_pos ⟨hlt, hle⟩]
  case entered' => rw [hrframes, if_pos rfl, Option.map_some]
  case added' => rw [hrframes, if_neg (by omega), hframes, if_neg (by omega), hi.added']
  case below =>
    intro g' hsome
    obtain rfl := Option.some.inj hsome
    refine ⟨g, ?_, .keeps_refl hd g⟩
    rw [hsframes, if_neg (by omega), hg]
  case below' =>
    intro g' hdone
    obtain ⟨there, hthere, hrel⟩ := hi.below' g' hdone
    exact ⟨g, rfl, (hrises there hthere).keeps_trans hd hrel⟩
  case queued =>
    -- The second instruction was visited with a frame from below the last one, and the new one is above it.
    rintro _ rfl
    obtain ⟨there, hthere, hrel⟩ := hi.below' g rfl
    exact hlast (hthere.trans (congrArg some (hrel.keeps_antisymm hd (hrises there hthere))))

/-- The first instruction is visited with a frame that is new. -/
theorem InStep.visit_first_anew (hd : d.Semilattice) {g : Frame V} {queue : List Nat}
    (hi : InStep d f a k locals v x y s t last done) (hqueue : s.queue = a :: queue)
    (hs : (s.dequeue a queue).visit d f a = .ok s') (hg : s.frames.getD a none = some g)
    (hlast : last ≠ some g) :
    ∃ t', Visits d e (k + 1) t t' ∧ InStep d f a k locals v x y s' t' (some g) done ∧
      Raised d f a s' (some g) := by
  have hinside := h.inside
  have hrises : ∀ g', last = some g' → g.Rel d.Keeps g' := by
    intro g' hlast'
    obtain ⟨there, hthere, hrel⟩ := hi.below g' hlast'
    obtain rfl := Option.some.inj (hg.symm.trans hthere)
    exact hrel
  have hyields : Yields d last g := yields_of_keeps hd hlast hrises
  have hi' := hi.dequeue hqueue
  rw [shifted_self] at hi'
  have hqueue' : t.queue = a :: queue.map (shifted a k) := by
    rw [hi.alike.queue, hqueue, List.map_cons, shifted_self]
  have hg' : t.frames.getD a none = some g := by
    have hframes := hi.alike.frames a ⟨by omega, .inl (Nat.le_refl a)⟩
    rwa [shifted_self, hg] at hframes
  -- On the two instructions the frame comes to the position behind the first one.
  obtain ⟨_, g', hmeet, hs⟩ := (visit_takes (s := s.dequeue a queue) (h.pushes g) hg).mp hs
  have hentered : Yields d (s.frames.getD (a + 1) none) (g.push v) := by
    rw [hi.entered]
    exact hyields.push (hd.idem v)
  obtain rfl := Except.ok.inj (hentered.gives.symm.trans hmeet)
  -- On the three it goes through the marks first.
  have hstart : t.Tidy e.size := h.size ▸ hi.alike.tidy'
  obtain ⟨r, hvisits, htidy, hrqueue, hrframes⟩ := walk_marks hstart hqueue' hg'
    (fun i hik => (h.marks i hik).2) (by rw [h.size]; omega) fun q hlt hle => by
      refine ⟨fun hmem => ?_, by rw [hi.walked' q hlt hle]; exact hyields⟩
      obtain ⟨p, _, hplace⟩ := List.mem_map.mp hmem
      exact shifted_ne (.inl ⟨hlt, hle⟩) hplace
  have htidy' := htidy.dequeue hrqueue
  rw [h.size] at htidy'
  have hstep := hi'.enter h hd hg hrises hlast htidy' rfl hrframes
  obtain ⟨t', ht', halike⟩ := hstep.alike.flowIntoHandlers h.relocation h.handlers hs
  obtain ⟨hadvance, hraised⟩ := flowIntoHandlers_advance hd.absorptive.absorbs hstep.wellFormed
    (fun edge hedge => (h.handlers edge hedge).1) (hi.wellFormed.locals a g hg) hs
  have htouches' : Touches (fun q => ∃ p, Outside f.size a k p ∧ shifted a k p = q) _ t' :=
    Touches.flowIntoHandlers (fun edge' hedge' => by
      obtain ⟨edge, hedge, rfl⟩ := List.mem_map.mp hedge'
      exact ⟨edge.handler, h.handlers edge hedge, rfl⟩) ht'
  refine ⟨t', hvisits.trans (.one hrqueue ?_), ?_, ?_⟩
  · have hthere : (r.dequeue (a + k) (queue.map (shifted a k))).frames.getD (a + k) none = some g := by
      show r.frames.getD (a + k) none = some g
      rw [hrframes]
      split_ifs with hrow
      · rfl
      · rw [show a + k = a by omega, hg']
    refine (visit_takes (h.pushes' g) hthere).mpr ⟨by rw [h.size]; omega, g.push x, ?_, ?_⟩
    · show meet d (r.frames.getD (a + k + 1) none) (g.push x) = .ok (g.push x)
      rw [hrframes, if_neg (by omega), hi.entered']
      exact (hyields.push (hd.idem x)).gives
    · rw [show a + k = a + k + 0 from rfl, h.covered' 0 (by omega)]
      exact ht'
  · exact hstep.spread hadvance halike (Touches.flowIntoHandlers h.handlers hs) htouches'
  · intro g' hsome
    obtain rfl := Option.some.inj hsome
    exact hraised

/-- A visit of the first instruction is matched by visits of the marks and of the first of the three. -/
theorem InStep.visit_first (hd : d.Semilattice) {queue : List Nat}
    (hi : InStep d f a k locals v x y s t last done) (hr : Raised d f a s last) (hqueue : s.queue = a :: queue)
    (hs : (s.dequeue a queue).visit d f a = .ok s') :
    ∃ count t' last', Visits d e count t t' ∧ InStep d f a k locals v x y s' t' last' done ∧
      Raised d f a s' last' := by
  have hinside := h.inside
  have hi' := hi.dequeue hqueue
  rw [shifted_self] at hi'
  have hqueue' : t.queue = a :: queue.map (shifted a k) := by
    rw [hi.alike.queue, hqueue, List.map_cons, shifted_self]
  cases hg : s.frames.getD a none with
  | none =>
    have hg' : t.frames.getD a none = none := by
      have hframes := hi.alike.frames a ⟨by omega, .inl (Nat.le_refl a)⟩
      rwa [shifted_self, hg] at hframes
    rw [visit_of_none (s := s.dequeue a queue) hg] at hs
    obtain rfl := Except.ok.inj hs
    exact ⟨1, _, last, .one hqueue' (visit_of_none (s := t.dequeue a _) hg'), hi', hr⟩
  | some g =>
    by_cases hlast : last = some g
    · subst hlast
      obtain ⟨rfl, ht⟩ := hi'.visit_first_again h hd hr hs hg
      exact ⟨1, _, some g, .one hqueue' ht, hi', hr⟩
    · obtain ⟨t', hvisits, hstep, hraised⟩ := hi.visit_first_anew h hd hqueue hs hg hlast
      exact ⟨k + 1, t', some g, hvisits, hstep, hraised⟩

/-- Where the marks behind the first instruction were gone through, and the second of the three was visited, the
solver is in step again. -/
theorem InStep.pass (hi : InStep d f a k locals v x y s t last done) {u r : Progress V} {queue : List Nat}
    (hqueue : s.queue = (a + 1) :: queue) (hu : u.WellFormed f.size locals) (htidy : u.Tidy f.size)
    (hrtidy : r.Tidy (f.size + 1)) (huqueue : u.queue = queue) (hrqueue : r.queue = queue.map (shifted a k))
    (hframes : ∀ q, u.frames.getD q none =
      if a + 1 < q ∧ q ≤ a + k + 1 then last.map (·.push v) else s.frames.getD q none)
    (hrframes : ∀ q, r.frames.getD q none =
      if q = a + k + 2 then last.map (fun g => (g.push x).push y) else t.frames.getD q none)
    (hd : d.Semilattice) : InStep d f a k locals v x y u r last last := by
  have hinside := h.inside
  have hout : a + 1 ∉ queue := by
    have hnodup := hi.alike.tidy.once
    rw [hqueue] at hnodup
    exact (List.nodup_cons.mp hnodup).1
  constructor
  case wellFormed => exact hu
  case alike =>
    refine ⟨htidy, hrtidy, by rw [huqueue, hrqueue], fun p hp => ?_⟩
    have hmoved : shifted a k p ≠ a + k + 2 := shifted_ne (.inr rfl)
    have hstays : ¬(a + 1 < p ∧ p ≤ a + k + 1) := by
      obtain ⟨_, hout⟩ := hp
      omega
    rw [hrframes, if_neg hmoved, hframes, if_neg hstays, hi.alike.frames p hp]
  case outside =>
    intro p hp
    exact hi.outside p (by rw [hqueue, ← huqueue]; exact List.mem_cons_of_mem _ hp)
  case entered => rw [hframes, if_neg (by omega), hi.entered]
  case walked =>
    intro p hlt hle
    rw [hframes, if_pos ⟨hlt, hle⟩]
  case walked' =>
    intro p hlt hle
    rw [hrframes, if_neg (by omega), hi.walked' p hlt hle]
  case entered' => rw [hrframes, if_neg (by omega), hi.entered']
  case added' => rw [hrframes, if_pos rfl]
  case below =>
    intro g hlast
    obtain ⟨there, hthere, hrel⟩ := hi.below g hlast
    exact ⟨there, by rw [hframes, if_neg (by omega), hthere], hrel⟩
  case below' => exact fun g hlast => ⟨g, hlast, .keeps_refl hd g⟩
  case queued => exact fun hmem => absurd (huqueue ▸ hmem) hout

/-- A visit behind the first instruction leads to the second one, and to the other two of the three. -/
theorem InStep.visit_second (hd : d.Semilattice) {queue : List Nat}
    (hi : InStep d f a k locals v x y s t last done) (hr : Raised d f a s last)
    (hqueue : s.queue = (a + 1) :: queue) :
    ∃ u, Visits d f k s u ∧ u.queue = (a + k + 1) :: queue ∧
      ∀ s', (u.dequeue (a + k + 1) queue).visit d f (a + k + 1) = .ok s' →
        ∃ t', Visits d e 2 t t' ∧ InStep d f a k locals v x y s' t' last last ∧ Raised d f a s' last := by
  have hinside := h.inside
  obtain ⟨g, rfl⟩ : ∃ g, last = some g := by
    cases hlast : last with
    | some g => exact ⟨g, rfl⟩
    | none =>
      refine absurd ?_ (hi.queued (by rw [hqueue]; exact List.mem_cons_self))
      cases hdone : done with
      | none => exact hlast.symm
      | some g =>
        obtain ⟨there, hthere, _⟩ := hi.below' g hdone
        rw [hlast] at hthere
        cases hthere
  have hyields : Yields d done g := by
    refine yields_of_keeps hd (hi.queued (by rw [hqueue]; exact List.mem_cons_self)) fun g' hdone => ?_
    obtain ⟨there, hthere, hrel⟩ := hi.below' g' hdone
    obtain rfl := Option.some.inj hthere
    exact hrel
  have hplace : a + 1 + k = a + k + 1 := by omega
  obtain ⟨u, hvisits, htidy, huqueue, huframes⟩ := walk_marks hi.alike.tidy hqueue
    hi.entered (fun i hik => (h.marks i hik).1) (by omega) fun q hlt hle => by
      refine ⟨fun hmem => ?_, ?_⟩
      · have := hi.outside q (by rw [hqueue]; exact List.mem_cons_of_mem _ hmem)
        omega
      · rw [hi.walked q hlt (by omega)]
        exact hyields.push (hd.idem v)
  rw [hplace] at huqueue huframes
  refine ⟨u, hvisits, huqueue, fun s' hs => ?_⟩
  have hthere : (u.dequeue (a + k + 1) queue).frames.getD (a + k + 1) none = some (g.push v) := by
    show u.frames.getD (a + k + 1) none = some (g.push v)
    rw [huframes]
    split_ifs with hrow
    · rfl
    · rw [show a + k + 1 = a + 1 by omega, hi.entered, Option.map_some]
  obtain ⟨hnext, joined, hmeet, hs⟩ := (visit_takes (h.turns g) hthere).mp hs
  have hleft : Outside f.size a k (a + k + 2) := ⟨hnext, .inr (by omega)⟩
  have hflow : (u.dequeue (a + k + 1) queue).flowInto d (a + k + 2) (g.push w) =
      .ok ((u.dequeue (a + k + 1) queue).raise (a + k + 2) joined) := flowInto_eq_ok.mpr ⟨joined, hmeet, rfl⟩
  -- The second of the three instructions pushes its value, and the third one is next.
  have hqueue' : t.queue = (a + k + 1) :: queue.map (shifted a k) := by
    rw [hi.alike.queue, hqueue, List.map_cons, shifted_next]
  have htidy' := hi.alike.tidy'.dequeue hqueue'
  have hadds : Yields d (t.frames.getD (a + k + 2) none) ((g.push x).push y) := by
    have hpushed := (hyields.push (hd.idem x)).push (hd.idem y)
    rw [Option.map_map] at hpushed
    rw [hi.added']
    exact hpushed
  have hrtidy := htidy'.raise (show a + k + 2 < f.size + 1 by omega) ((g.push x).push y)
  have hrframes : ∀ q, ((t.dequeue (a + k + 1) (queue.map (shifted a k))).raise (a + k + 2)
      ((g.push x).push y)).frames.getD q none =
        if q = a + k + 2 then some ((g.push x).push y) else t.frames.getD q none := by
    intro q
    rw [raise_getD (by rw [htidy'.frames]; omega)]
    simp only [eq_comm]
    rfl
  have hrqueue : ((t.dequeue (a + k + 1) (queue.map (shifted a k))).raise (a + k + 2)
      ((g.push x).push y)).queue = (a + k + 2) :: queue.map (shifted a k) := by
    rw [htidy'.raise_queue, if_neg]
    · rfl
    · refine not_or.mpr ⟨hadds.differs, fun hmem => ?_⟩
      obtain ⟨p, _, hplace⟩ := List.mem_map.mp hmem
      exact shifted_ne (.inr rfl) hplace
  have hsecond : (t.dequeue (a + k + 1) (queue.map (shifted a k))).visit d e (a + k + 1) =
      .ok ((t.dequeue (a + k + 1) (queue.map (shifted a k))).raise (a + k + 2) ((g.push x).push y)) := by
    refine (visit_takes (s := t.dequeue (a + k + 1) _) (h.adds' g) hi.entered').mpr
      ⟨by rw [h.size]; omega, _, hadds.gives, ?_⟩
    refine hr.flowIntoHandlers' h hd (fun p hp => ?_) (g.push x) rfl (show 1 < 3 by omega)
    rw [hrframes, if_neg (shifted_ne (.inr rfl)), hi.alike.frames p hp]
  -- Both solvers are about to hand the result on.
  have hstep := hi.pass h hqueue (dequeue_wellFormed (hvisits.wellFormed hd.absorptive.absorbs h.within hi.wellFormed)
    huqueue) (htidy.dequeue huqueue) (hrtidy.dequeue hrqueue) rfl rfl huframes hrframes hd
  have hr' : Raised d f a (u.dequeue (a + k + 1) queue) (some g) := by
    intro g' hsome edge hedge
    obtain ⟨there, hthere, hrel⟩ := hr g' hsome edge hedge
    obtain ⟨_, hout⟩ := h.handlers edge hedge
    exact ⟨there, (huframes _).trans ((if_neg (by omega)).trans hthere), hrel⟩
  obtain ⟨hadvance, _⟩ := flowInto_advance hd.absorptive.absorbs hstep.wellFormed (f := g.push w) hleft.1
    (hstep.wellFormed.locals _ (g.push v) hthere) hflow
  have hraised := hr'.grow hadvance.grows
  rw [h.covered] at hs
  obtain rfl := Except.ok.inj ((hraised.flowIntoHandlers hd (g.push v) rfl).symm.trans hs)
  obtain ⟨t', ht', halike⟩ := hstep.alike.flowInto h.relocation hleft hflow
  have htouches' : Touches (fun q => ∃ p, Outside f.size a k p ∧ shifted a k p = q) _ t' :=
    Touches.flowInto ⟨_, hleft, rfl⟩ ht'
  rw [shifted_behind (show a + k + 1 < a + k + 2 by omega)] at ht'
  obtain ⟨joined', hmeet', rfl⟩ := flowInto_eq_ok.mp ht'
  refine ⟨_, .visit hqueue' hsecond (.one hrqueue ((visit_takes (h.turns' g) ?_).mpr
    ⟨by rw [h.size]; omega, joined', hmeet', ?_⟩)),
    hstep.spread hadvance halike (Touches.flowInto hleft hflow) htouches', hraised⟩
  · exact (hrframes _).trans (if_pos rfl)
  · exact hraised.flowIntoHandlers' h hd halike.frames ((g.push x).push y) rfl (show 2 < 3 by omega)

/-- A run that succeeds on the two instructions succeeds on the three, with the same frames elsewhere. -/
theorem InStep.settle (hd : d.Semilattice) {visits : Nat} {frames : Frames V}
    (hi : InStep d f a k locals v x y s t last done) (hr : Raised d f a s last)
    (hs : settle d f visits s = .ok frames) :
    ∃ visits' frames', Progress.settle d e visits' t = .ok frames' ∧
      ∀ p, Outside f.size a k p → frames'.getD (shifted a k p) none = frames.getD p none := by
  induction visits using Nat.strong_induction_on generalizing s t last done with
  | h visits ih =>
    cases hqueue : s.queue with
    | nil =>
      obtain rfl := settle_of_idle hqueue hs
      refine ⟨0, t.frames, ?_, hi.alike.frames⟩
      rw [Progress.settle, hi.alike.queue, hqueue]
      rfl
    | cons p queue =>
      have hmem : p ∈ s.queue := by rw [hqueue]; exact List.mem_cons_self
      have hlt := hi.alike.tidy.inside p hmem
      have hout := hi.outside p hmem
      by_cases hfirst : p = a
      · subst hfirst
        obtain ⟨rest, u, rfl, hu, hrest⟩ := visit_of_settle hqueue hs
        obtain ⟨count, t', last', hvisits, hstep, hraised⟩ := hi.visit_first h hd hr hqueue hu
        obtain ⟨visits', frames', hframes, hsame⟩ := ih rest (by omega) hstep hraised hrest
        exact ⟨count + visits', frames', hvisits.settle hframes, hsame⟩
      by_cases hsecond : p = a + 1
      · subst hsecond
        obtain ⟨u, hwalk, huqueue, hmatch⟩ := hi.visit_second h hd hr hqueue
        obtain ⟨rest, rfl, hrest⟩ := hwalk.rest_of_settle hs
        obtain ⟨rest, s', rfl, hs', hrest⟩ := visit_of_settle huqueue hrest
        obtain ⟨t', hvisits, hstep, hraised⟩ := hmatch s' hs'
        obtain ⟨visits', frames', hframes, hsame⟩ := ih rest (by omega) hstep hraised hrest
        exact ⟨2 + visits', frames', hvisits.settle hframes, hsame⟩
      · obtain ⟨rest, u, rfl, hu, hrest⟩ := visit_of_settle hqueue hs
        obtain ⟨t', ht', hstep, hraised⟩ :=
          (hi.dequeue hqueue).visit_other h hd hr hlt (by omega) hu
        obtain ⟨visits', frames', hframes, hsame⟩ := ih rest (by omega) hstep hraised hrest
        refine ⟨1 + visits', frames', Visits.settle (.one ?_ ht') hframes, hsame⟩
        rw [hi.alike.queue, hqueue, List.map_cons]

omit [DecidableEq V] h in
/-- The solver starts in step. -/
theorem InStep.start (d : Domain V) (hinside : a + k + 1 < f.size) (v x y : V) (entry : Frame V) :
    InStep d f a k entry.locals.size v x y (Progress.start f.size entry) (Progress.start (f.size + 1) entry) none none := by
  have hnone : ∀ {size : Nat}, 0 < size → ∀ q, 0 < q → (Progress.start size entry).frames.getD q none = none := by
    intro size hsize q hq
    rw [start_getD hsize, if_neg (by omega)]
  constructor
  case wellFormed => exact start_wellFormed (by omega)
  case alike =>
    exact .start (relocation_shifted hinside) ⟨by omega, .inl (Nat.zero_le a)⟩ (if_pos (Nat.zero_le a)) entry
  case outside =>
    intro p hp
    obtain rfl := List.mem_singleton.mp hp
    exact .inl (Nat.zero_le _)
  case entered => exact hnone (by omega) _ (by omega)
  case walked => exact fun p hlt _ => hnone (by omega) p (by omega)
  case walked' => exact fun p hlt _ => hnone (by omega) p (by omega)
  case entered' => exact hnone (by omega) _ (by omega)
  case added' => exact hnone (by omega) _ (by omega)
  case below => exact nofun
  case below' => exact nofun
  case queued =>
    intro hmem
    have := List.mem_singleton.mp hmem
    omega

/-- Where three instructions stand for two, the solver comes to the same frames at all other positions. -/
theorem ThreeForTwo.settle (hd : d.Semilattice) {visits : Nat} {entry : Frame V} {frames : Frames V}
    (hs : Progress.settle d f visits (Progress.start f.size entry) = .ok frames) :
    ∃ visits' frames', Progress.settle d e visits' (Progress.start e.size entry) = .ok frames' ∧
      ∀ p, Outside f.size a k p → frames'.getD (shifted a k p) none = frames.getD p none := by
  rw [h.size]
  exact (InStep.start d h.inside v x y entry).settle h hd (fun _ hnone => nomatch hnone) hs

end InStep

end Progress

end Frame

end DirectCall
