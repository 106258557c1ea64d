import DirectCall.Proofs.Frame.Arrive

/-!
# The second halves of wide locals

A store writes both slots of a wide value and cuts the wide values that it overlaps, so behind every wide
local stands an unset one (`Frame.Paired`). Instructions keep this (`Paired.execute`), and so do joins and
the entry of a method.
-/

namespace DirectCall.Frame

variable {V : Type} {d : Domain V} {locals : Array V}

/-- Behind every wide local stands an unset one. -/
def Paired (d : Domain V) (locals : Array V) : Prop :=
  ∀ i v, locals[i]? = some v → d.size v = 2 → locals[i + 1]? = some (d.ofDescriptor none)

/-- No wide local reaches into a slot from ahead. -/
def Uncut (d : Domain V) (locals : Array V) (var : Nat) : Prop :=
  ∀ i v, locals[i]? = some v → i + 1 = var → d.size v ≠ 2

section Store

theorem getElem?_set {i var : Nat} {v : V} (hvar : var < locals.size) :
    (locals.setIfInBounds var v)[i]? = if i = var then some v else locals[i]? := by
  rw [Array.getElem?_setIfInBounds]
  by_cases h : var = i
  · subst h
    simp [hvar]
  · simp [h, Ne.symm h]

/-- Any slot may be unset. -/
theorem Paired.unset (hunset : d.size (d.ofDescriptor none) ≠ 2) (h : Paired d locals) {var : Nat}
    (hvar : var < locals.size) : Paired d (locals.setIfInBounds var (d.ofDescriptor none)) := by
  intro i w hw hwide
  rw [getElem?_set hvar] at hw ⊢
  split_ifs at hw
  · obtain rfl := Option.some.inj hw
    exact absurd hwide hunset
  · have hbehind := h i w hw hwide
    split_ifs
    · rfl
    · exact hbehind

/-- A value may be put where it cuts none, if a wide one finds an unset slot behind it. -/
theorem Paired.set (h : Paired d locals) {var : Nat} (hvar : var < locals.size) (huncut : Uncut d locals var)
    {v : V} (hv : d.size v = 2 → locals[var + 1]? = some (d.ofDescriptor none)) :
    Paired d (locals.setIfInBounds var v) := by
  intro i w hw hwide
  rw [getElem?_set hvar] at hw ⊢
  split_ifs at hw with hi
  · obtain rfl := Option.some.inj hw
    rw [if_neg (by omega), hi]
    exact hv hwide
  · rw [if_neg fun heq => huncut i w hw heq hwide]
    exact h i w hw hwide

/-- Cut off, a wide value is gone. -/
theorem Paired.cutWide (hunset : d.size (d.ofDescriptor none) ≠ 2) (h : Paired d locals) (var : Nat) :
    Paired d (Frame.cutWide d locals var) ∧ Uncut d (Frame.cutWide d locals var) (var + 1) := by
  unfold Frame.cutWide
  split
  · rename_i v hv
    obtain ⟨hvar, _⟩ := Array.getElem?_eq_some_iff.mp hv
    split_ifs with hwide
    · refine ⟨h.unset hunset hvar, fun i w hw hi => ?_⟩
      rw [getElem?_set hvar, if_pos (Nat.succ.inj hi)] at hw
      exact Option.some.inj hw ▸ hunset
    · refine ⟨h, fun i w hw hi => ?_⟩
      obtain rfl := Nat.succ.inj hi
      obtain rfl := Option.some.inj (hv.symm.trans hw)
      exact hwide
  · rename_i hnone
    refine ⟨h, fun i w hw hi => ?_⟩
    obtain rfl := Nat.succ.inj hi
    rw [hnone] at hw
    cases hw

theorem Paired.setLocal (hunset : d.size (d.ofDescriptor none) ≠ 2) {f g : Frame V} (h : Paired d f.locals)
    {var : Nat} {v : V} (hg : f.setLocal d var v = .ok g) : Paired d g.locals := by
  have hcut : ∀ locals, (if 0 < var then Frame.cutWide d f.locals (var - 1) else f.locals) = locals →
      Paired d locals ∧ Uncut d locals var ∧ locals.size = f.locals.size := by
    rintro _ rfl
    split_ifs with hpos
    · obtain ⟨hpaired, huncut⟩ := h.cutWide hunset (var - 1)
      rw [Nat.sub_add_cancel hpos] at huncut
      exact ⟨hpaired, huncut, cutWide_size _ _ _⟩
    · exact ⟨h, fun i w _ hi => by omega, rfl⟩
  simp only [Frame.setLocal] at hg
  generalize hlocals : (if 0 < var then Frame.cutWide d f.locals (var - 1) else f.locals) = locals at hg
  obtain ⟨hpaired, huncut, hsize⟩ := hcut locals hlocals
  by_cases hwide : d.size v = 2
  · rw [if_pos hwide, if_pos hwide] at hg
    split_ifs at hg with hlast
    · obtain rfl := Except.ok.inj hg
      -- The second slot may as well be written first.
      rw [Array.setIfInBounds_comm _ _ (Nat.ne_of_lt (Nat.lt_succ_self var))]
      refine (hpaired.unset hunset (by omega)).set (by rw [Array.size_setIfInBounds]; omega) ?_ fun _ => ?_
      · intro i w hw hi
        rw [getElem?_set (by omega), if_neg (by omega)] at hw
        exact huncut i w hw hi
      · rw [getElem?_set (by omega), if_pos rfl]
  · rw [if_neg hwide, if_neg hwide] at hg
    split_ifs at hg with hlast
    · obtain rfl := Except.ok.inj hg
      exact hpaired.set (by omega) huncut fun h => absurd h hwide

end Store

/-! ## Instructions and joins -/

/-- What a domain must not do to have wide values without an unset slot behind them. -/
structure KeepsHalves (d : Domain V) : Prop where
  unset : d.size (d.ofDescriptor none) ≠ 2
  receiver : ∀ m, d.size (d.receiver m) ≠ 2
  joinUnset : d.join (d.ofDescriptor none) (d.ofDescriptor none) = d.ofDescriptor none
  joinWide : ∀ v w, d.size (d.join v w) = 2 → d.size v = 2 ∧ d.size w = 2
  refine : ∀ id insn vs, ∀ change ∈ d.refine id insn vs,
    change.1 ≠ d.ofDescriptor none ∧ d.size change.2 ≠ 2

variable [DecidableEq V]

theorem Paired.replaceAll {changes : List (V × V)}
    (hchanges : ∀ change ∈ changes, change.1 ≠ d.ofDescriptor none ∧ d.size change.2 ≠ 2) {f : Frame V}
    (h : Paired d f.locals) : Paired d (f.replaceAll changes).locals := by
  unfold Frame.replaceAll
  induction changes generalizing f with
  | nil => exact h
  | cons change rest ih =>
    obtain ⟨⟨hold, hnew⟩, hrest⟩ := List.forall_mem_cons.mp hchanges
    rw [List.foldl_cons]
    refine ih hrest fun i w hw hwide => ?_
    simp only [replace, Array.getElem?_map, Option.map_eq_some_iff] at hw ⊢
    obtain ⟨v, hv, rfl⟩ := hw
    split_ifs at hwide with heq
    · exact absurd hwide hnew
    · exact ⟨_, h i v hv hwide, if_neg (Ne.symm hold)⟩

theorem Paired.execute (hd : KeepsHalves d) {f g : Frame V} (h : Paired d f.locals) {id : NodeId}
    {insn : Insn} (hg : f.execute d id insn = .ok g) : Paired d g.locals := by
  unfold Frame.execute at hg
  split at hg
  · obtain rfl := Except.ok.inj hg
    exact h
  · obtain ⟨s, hs, hg⟩ := bind_eq_ok.mp hg
    obtain rfl := Except.ok.inj hg
    refine Paired.replaceAll (hd.refine _ _ _) ?_
    rcases step_locals hs with hsame | ⟨before, var, v, hbefore, hset⟩
    · rw [hsame]
      exact h
    · exact Paired.setLocal hd.unset (hbefore ▸ h) hset

omit [DecidableEq V] in
theorem Paired.join (hd : KeepsHalves d) {f g joined : Frame V} (hf : Paired d f.locals)
    (hg : Paired d g.locals) (h : f.join d g = .ok joined) : Paired d joined.locals := by
  unfold Frame.join at h
  split_ifs at h
  obtain rfl := Except.ok.inj h
  intro i w hw hwide
  simp only [Array.getElem?_zipWith_eq_some] at hw ⊢
  obtain ⟨v, v', hv, hv', rfl⟩ := hw
  obtain ⟨hleft, hright⟩ := hd.joinWide v v' hwide
  exact ⟨_, _, hf i v hv hleft, hg i v' hv' hright, hd.joinUnset⟩

/-! ## The entry of a method -/

omit [DecidableEq V]

/-- Parameters may be put where all slots are unset. -/
theorem Paired.setParams (hd : KeepsHalves d) {params : List String}
    (hparams : ∀ p ∈ params, d.size (d.ofDescriptor (some p)) = Descriptor.size (some p)) {slot : Nat}
    (h : Paired d locals) (huncut : Uncut d locals slot)
    (hfree : ∀ i v, slot ≤ i → locals[i]? = some v → v = d.ofDescriptor none)
    (hroom : slot + params.foldr (fun p slots => Descriptor.size (some p) + slots) 0 ≤ locals.size) :
    Paired d (Frame.setParams d locals slot params) := by
  induction params generalizing locals slot with
  | nil => exact h
  | cons param rest ih =>
    obtain ⟨hparam, hrest⟩ := List.forall_mem_cons.mp hparams
    rw [List.foldr_cons] at hroom
    have hpos : 1 ≤ Descriptor.size (some param) := by
      rw [Descriptor.size]
      split_ifs
      · exact Nat.le_succ 1
      · exact Nat.le_refl 1
    have hslot : slot < locals.size := by omega
    rw [Frame.setParams]
    have hfree' : ∀ i, slot ≤ i → i < locals.size → locals[i]? = some (d.ofDescriptor none) := by
      intro i hi hlt
      have hget : locals[i]? = some locals[i] := Array.getElem?_eq_getElem hlt
      rw [hget, hfree i _ hi hget]
    refine ih hrest (h.set hslot huncut fun hwide => ?_) (fun i v hv hi => ?_) (fun i v hi hv => ?_) ?_
    · exact hfree' (slot + 1) (Nat.le_succ slot) (by omega)
    · rw [getElem?_set hslot] at hv
      split_ifs at hv with heq
      · obtain rfl := Option.some.inj hv
        omega
      · have hlt := (Array.getElem?_eq_some_iff.mp hv).1
        rw [hfree i v (by omega) hv]
        exact hd.unset
    · rw [getElem?_set hslot, if_neg (by omega)] at hv
      exact hfree i v (by omega) hv
    · rw [Array.size_setIfInBounds]
      omega

theorem Paired.entry (hd : KeepsHalves d) {m : MethodSig} {maxLocals : UInt16} {entry : Frame V}
    (hparams : ∀ parsed, MethodDescriptor.parse m.descriptor = .ok parsed → ∀ p ∈ parsed.params,
      d.size (d.ofDescriptor (some p)) = Descriptor.size (some p))
    (h : Frame.entry d m maxLocals = .ok entry) : Paired d entry.locals := by
  unfold Frame.entry at h
  split at h
  · cases h
  · rename_i parsed hparsed
    have hunset : ∀ (count i : Nat) (v : V), (Array.replicate count (d.ofDescriptor none))[i]? = some v →
        v = d.ofDescriptor none := by
      intro count i v hv
      rw [Array.getElem?_replicate] at hv
      split_ifs at hv
      exact (Option.some.inj hv).symm
    have hpaired : ∀ count, Paired d (Array.replicate count (d.ofDescriptor none)) :=
      fun count i v hv hwide => absurd (hunset count i v hv ▸ hwide) hd.unset
    dsimp only [entrySlots, MethodDescriptor.paramSlots] at h
    split_ifs at h with hstatic
    · obtain rfl := Except.ok.inj h
      refine (hpaired _).setParams hd (hparams parsed hparsed) (fun i v _ hi => by omega)
        (fun i v _ hv => hunset _ i v hv) ?_
      rw [Array.size_replicate]
      omega
    · obtain rfl := Except.ok.inj h
      have hpos : ∀ slots, 0 < (Array.replicate (max maxLocals.toNat (slots + 1))
          (d.ofDescriptor none)).size := by
        intro slots
        rw [Array.size_replicate]
        omega
      refine ((hpaired _).set (hpos _) (fun i v _ hi => by omega) fun hwide =>
        absurd hwide (hd.receiver m)).setParams hd (hparams parsed hparsed) (fun i v hv hi => ?_)
          (fun i v hi hv => ?_) ?_
      · rw [getElem?_set (hpos _), if_pos (Nat.succ.inj hi)] at hv
        exact Option.some.inj hv ▸ hd.receiver m
      · rw [getElem?_set (hpos _), if_neg (by omega)] at hv
        exact hunset _ i v hv
      · rw [Array.size_setIfInBounds, Array.size_replicate]
        omega

theorem setParams_size (params : List String) (locals : Array V) (slot : Nat) :
    (Frame.setParams d locals slot params).size = locals.size := by
  induction params generalizing locals slot with
  | nil => rfl
  | cons param rest ih => rw [Frame.setParams, ih, Array.size_setIfInBounds]

/-- A frame has at least the slots of the entry. -/
theorem entry_locals_size {m : MethodSig} {maxLocals : UInt16} {entry : Frame V}
    (h : Frame.entry d m maxLocals = .ok entry) : ∃ parsed, MethodDescriptor.parse m.descriptor = .ok parsed ∧
      entry.locals.size = max maxLocals.toNat (entrySlots m parsed) := by
  unfold Frame.entry at h
  split at h
  · cases h
  · rename_i parsed hparsed
    refine ⟨parsed, hparsed, ?_⟩
    dsimp only at h
    split_ifs at h
    · obtain rfl := Except.ok.inj h
      rw [setParams_size, Array.size_replicate]
    · obtain rfl := Except.ok.inj h
      rw [setParams_size, Array.size_setIfInBounds, Array.size_replicate]

/-! ## Analysed frames -/

/-- The frames of an analysis have as many locals as the entry. -/
theorem locals_size_of_analyze [DecidableEq V] {m : MethodSig} {body : Body} {frames : Frames V}
    {entry : Frame V} (h : analyze d m body = .ok frames)
    (hentry : Frame.entry d m body.maxLocals = .ok entry) {p : Nat} {f : Frame V}
    (hf : frames.getD p none = some f) : f.locals.size = entry.locals.size := by
  obtain ⟨flow, hflow, _⟩ := bind_eq_ok.mp h
  refine analyze_invariant h hflow hentry (Q := fun _ f => f.locals.size = entry.locals.size)
    (fun p f g joined hf hg hjoin => ?_) rfl (fun p before move g hbefore _ hpass => ?_) p f hf
  · unfold Frame.join at hjoin
    split_ifs at hjoin
    obtain rfl := Except.ok.inj hjoin
    rw [Array.size_zipWith, hf, hg, Nat.min_self]
  · cases move with
    | next q => exact (execute_locals_size hpass).trans hbefore
    | raise edge =>
      obtain rfl := Except.ok.inj hpass
      exact hbefore

/-- The frames of an analysis have the locals of the entry, and behind every wide one an unset one. -/
theorem locals_of_analyze [DecidableEq V] (hd : KeepsHalves d) {m : MethodSig} {body : Body}
    {frames : Frames V} {entry : Frame V} (h : analyze d m body = .ok frames)
    (hentry : Frame.entry d m body.maxLocals = .ok entry) (hpaired : Paired d entry.locals) {p : Nat}
    {f : Frame V} (hf : frames.getD p none = some f) :
    Paired d f.locals ∧ f.locals.size = entry.locals.size := by
  obtain ⟨flow, hflow, _⟩ := bind_eq_ok.mp h
  refine ⟨?_, locals_size_of_analyze h hentry hf⟩
  refine analyze_invariant h hflow hentry (Q := fun _ f => Paired d f.locals)
    (fun p f g joined hf hg hjoin => hf.join hd hg hjoin) hpaired (fun p before move g hbefore _ hpass => ?_) p f hf
  cases move with
  | next q => exact hbefore.execute hd hpass
  | raise edge =>
    obtain rfl := Except.ok.inj hpass
    exact hbefore

end DirectCall.Frame
