import DirectCall.Proofs.Frame.Step

/-!
# One instruction in two domains

If the operations of two domains respect a relation of their values, an instruction takes related
frames to related frames (`step_sim`). They need to respect it for that instruction only
(`step_simAt`). Some instructions move a different number of values depending
on widths; for these the two frames must agree on the width of every slot.
-/

namespace DirectCall

variable {V W : Type}

/-- The operations of two domains respect a relation; refinements are left out. -/
structure Domain.Sim (d : Domain V) (e : Domain W) (R : V → W → Prop) : Prop where
  unset : R (d.ofDescriptor none) (e.ofDescriptor none)
  exception : ∀ catchType, R (d.exception catchType) (e.exception catchType)
  produce : ∀ id insn, R (d.produce id insn) (e.produce id insn)
  copy : ∀ id insn v w, R v w → R (d.copy id insn v) (e.copy id insn w)
  copySize : ∀ id insn v w, d.size v = e.size w →
    d.size (d.copy id insn v) = e.size (e.copy id insn w)
  unary : ∀ id insn v w, R v w → R (d.unary id insn v) (e.unary id insn w)
  increment : ∀ id var delta v w, R v w →
    d.size (d.unary id (.iinc var delta) v) = e.size (e.unary id (.iinc var delta) w)
  binary : ∀ id insn v v' w w', R v w → R v' w' →
    R (d.binary id insn v v') (e.binary id insn w w')
  nary : ∀ id insn vs ws, List.Forall₂ R vs ws → R (d.nary id insn vs) (e.nary id insn ws)

/-- For one instruction the operations of two domains respect a relation. -/
structure Domain.SimAt (d : Domain V) (e : Domain W) (R : V → W → Prop) (id : NodeId) (insn : Insn) :
    Prop where
  unset : R (d.ofDescriptor none) (e.ofDescriptor none)
  produce : R (d.produce id insn) (e.produce id insn)
  copy : ∀ v w, R v w → R (d.copy id insn v) (e.copy id insn w)
  copySize : ∀ v w, R v w → d.size v = e.size w → d.size (d.copy id insn v) = e.size (e.copy id insn w)
  unary : ∀ v w, R v w → R (d.unary id insn v) (e.unary id insn w)
  increment : ∀ var delta, insn = .iinc var delta → ∀ v w, R v w →
    d.size (d.unary id insn v) = e.size (e.unary id insn w)
  binary : ∀ v v' w w', R v w → R v' w' → R (d.binary id insn v v') (e.binary id insn w w')
  nary : ∀ vs ws, List.Forall₂ R vs ws → R (d.nary id insn vs) (e.nary id insn ws)

theorem Domain.Sim.at {d : Domain V} {e : Domain W} {R : V → W → Prop} (h : d.Sim e R) (id : NodeId)
    (insn : Insn) : d.SimAt e R id insn where
  unset := h.unset
  produce := h.produce id insn
  copy := h.copy id insn
  copySize v w _ := h.copySize id insn v w
  unary := h.unary id insn
  increment var delta heq v w := heq ▸ h.increment id var delta v w
  binary := h.binary id insn
  nary := h.nary id insn

/-- The effect of the opcode depends on how wide values are. -/
def Opcode.readsWidths (code : UInt8) : Bool :=
  match effect code with
  | .store | .pop2 | .shuffle _ | .increment => true
  | _ => false

namespace Frame

/-- Both frames have a value of the same width in each slot. -/
def SameWidths (d : Domain V) (e : Domain W) (f : Frame V) (g : Frame W) : Prop :=
  f.Rel (fun v w => d.size v = e.size w) g

section Lists

variable {R : V → W → Prop}

theorem forall₂_set {vs : List V} {ws : List W} (h : List.Forall₂ R vs ws) (i : Nat) {v : V} {w : W}
    (hvw : R v w) : List.Forall₂ R (vs.set i v) (ws.set i w) := by
  induction h generalizing i with
  | nil => simp
  | cons hhead hrest ih =>
    cases i with
    | zero => exact .cons hvw hrest
    | succ i => exact .cons hhead (ih i)

theorem forall₂_getElem? {vs : List V} {ws : List W} (h : List.Forall₂ R vs ws) {i : Nat} {v : V}
    (hv : vs[i]? = some v) : ∃ w, ws[i]? = some w ∧ R v w := by
  induction h generalizing i with
  | nil => simp at hv
  | cons hhead hrest ih =>
    cases i with
    | zero =>
      simp only [List.getElem?_cons_zero, Option.some.injEq] at hv
      exact ⟨_, rfl, hv ▸ hhead⟩
    | succ i => exact ih hv

theorem forall₂_and {S : V → W → Prop} {vs : List V} {ws : List W} (h : List.Forall₂ R vs ws)
    (h' : List.Forall₂ S vs ws) : List.Forall₂ (fun v w => R v w ∧ S v w) vs ws := by
  induction h with
  | nil => exact .nil
  | cons hhead _ ih =>
    cases h' with
    | cons hhead' hrest' => exact .cons ⟨hhead, hhead'⟩ (ih hrest')

end Lists

variable {d : Domain V} {e : Domain W} {R : V → W → Prop} {f : Frame V} {g : Frame W} {id : NodeId}
  {insn : Insn}

theorem Rel.and {S : V → W → Prop} (h : f.Rel R g) (h' : f.Rel S g) :
    f.Rel (fun v w => R v w ∧ S v w) g :=
  ⟨forall₂_and h.locals h'.locals, forall₂_and h.stack h'.stack⟩

theorem Rel.getLocal (h : f.Rel R g) {var : Nat} {v : V} (hv : f.locals[var]? = some v) :
    ∃ w, g.locals[var]? = some w ∧ R v w := by
  rw [← Array.getElem?_toList] at hv
  obtain ⟨w, hw, hrel⟩ := forall₂_getElem? h.locals hv
  rw [Array.getElem?_toList] at hw
  exact ⟨w, hw, hrel⟩

theorem Rel.push (h : f.Rel R g) {v : V} {w : W} (hvw : R v w) : (f.push v).Rel R (g.push w) :=
  ⟨h.locals, .cons hvw h.stack⟩

theorem Rel.pushIf (h : f.Rel R g) (pushes : Bool) {v : V} {w : W} (hvw : R v w) :
    (f.pushIf pushes v).Rel R (g.pushIf pushes w) := by
  cases pushes
  · exact h
  · exact h.push hvw

theorem Rel.withStack (h : f.Rel R g) {vs : List V} {ws : List W} (hs : List.Forall₂ R vs ws) :
    Rel R ⟨f.locals, vs⟩ ⟨g.locals, ws⟩ :=
  ⟨h.locals, hs⟩

theorem Rel.drop (h : f.Rel R g) (count : Nat) :
    Rel R ⟨f.locals, f.stack.drop count⟩ ⟨g.locals, g.stack.drop count⟩ :=
  h.withStack (List.forall₂_drop count h.stack)

theorem Rel.pop (h : f.Rel R g) {count : Nat} {s : Step V} (hs : f.pop count = .ok s) :
    ∃ t, g.pop count = .ok t ∧ List.Forall₂ R s.1 t.1 ∧ s.2.Rel R t.2 := by
  obtain ⟨hcount, hoperands, hbelow⟩ := pop_eq_ok.mp hs
  refine ⟨((g.stack.take count).reverse, ⟨g.locals, g.stack.drop count⟩),
    pop_eq_ok.mpr ⟨h.stack_length ▸ hcount, rfl, rfl⟩, ?_, ?_⟩
  · rw [hoperands]
    exact List.rel_reverse (List.forall₂_take count h.stack)
  · rw [hbelow]
    exact h.drop count

/-! ## Locals -/

theorem cutWide_sim (hsim : d.SimAt e R id insn) (h : f.Rel R g) (hwidths : SameWidths d e f g) (var : Nat) :
    List.Forall₂ R (cutWide d f.locals var).toList (cutWide e g.locals var).toList := by
  unfold cutWide
  cases hv : f.locals[var]? with
  | none =>
    have hw : g.locals[var]? = none := by
      rw [Array.getElem?_eq_none_iff] at hv ⊢
      have := h.locals_size
      omega
    simp only [hw]
    exact h.locals
  | some v =>
    obtain ⟨w, hw, hsize⟩ := Rel.getLocal hwidths hv
    simp only [hw, ← hsize]
    split_ifs
    · rw [Array.toList_setIfInBounds, Array.toList_setIfInBounds]
      exact forall₂_set h.locals var hsim.unset
    · exact h.locals

theorem setLocal_sim (hsim : d.SimAt e R id insn) (h : f.Rel R g) (hwidths : SameWidths d e f g) {var : Nat}
    {v : V} {w : W} (hvw : R v w) (hsize : d.size v = e.size w) {f' : Frame V}
    (hf : f.setLocal d var v = .ok f') : ∃ g', g.setLocal e var w = .ok g' ∧ f'.Rel R g' := by
  have hcut : List.Forall₂ R
      (if 0 < var then cutWide d f.locals (var - 1) else f.locals).toList
      (if 0 < var then cutWide e g.locals (var - 1) else g.locals).toList := by
    split_ifs
    · exact cutWide_sim hsim h hwidths (var - 1)
    · exact h.locals
  have hset := forall₂_set hcut var hvw
  simp only [setLocal, ← hsize, ← h.locals_size] at hf ⊢
  by_cases hlast : (if d.size v = 2 then var + 1 else var) < f.locals.size
  · rw [if_pos hlast, Except.ok.injEq] at hf
    rw [if_pos hlast, ← hf]
    refine ⟨_, rfl, ?_, h.stack⟩
    by_cases hwide : d.size v = 2
    · simp only [hwide, if_true, Array.toList_setIfInBounds]
      exact forall₂_set hset (var + 1) hsim.unset
    · simp only [hwide, if_false, Array.toList_setIfInBounds]
      exact hset
  · rw [if_neg hlast] at hf
    simp at hf

/-! ## Stack shuffles -/

/-- Related stacks are shuffled alike, if they agree on widths, and related values are copied. -/
theorem shuffle_sim {size : V → Nat} {size' : W → Nat} {copy : V → V} {copy' : W → W}
    (hcopy : ∀ v w, R v w → R (copy v) (copy' w)) (kind : Shuffle) {vs : List V} {ws : List W}
    (h : List.Forall₂ (fun v w => R v w ∧ size v = size' w) vs ws) {r : Shuffle.Result V}
    (hr : kind.run size copy vs = some r) :
    ∃ r', kind.run size' copy' ws = some r' ∧ List.Forall₂ R r.1 r'.1 ∧
      List.Forall₂ R r.2 r'.2 := by
  have hrest : ∀ {vs : List V} {ws : List W},
      List.Forall₂ (fun v w => R v w ∧ size v = size' w) vs ws → List.Forall₂ R vs ws :=
    fun h => h.imp fun _ _ h => h.1
  cases h with
  | nil => cases kind <;> simp [Shuffle.run] at hr
  | cons ha hs =>
    have hca := hcopy _ _ ha.1
    cases kind with
    | dup =>
      obtain rfl := Option.some.inj hr
      exact ⟨_, rfl, .cons ha.1 .nil, .cons hca (.cons ha.1 (hrest hs))⟩
    | dupX1 =>
      cases hs with
      | nil => simp [Shuffle.run] at hr
      | cons hb hs =>
        obtain rfl := Option.some.inj hr
        exact ⟨_, rfl, .cons ha.1 .nil, .cons ha.1 (.cons hb.1 (.cons hca (hrest hs)))⟩
    | dupX2 =>
      cases hs with
      | nil => simp [Shuffle.run] at hr
      | cons hb hs =>
        simp only [Shuffle.run, hb.2] at hr ⊢
        split_ifs at hr ⊢
        · cases hs with
          | nil => simp at hr
          | cons hc hs =>
            obtain rfl := Option.some.inj hr
            exact ⟨_, rfl, .cons ha.1 .nil, .cons ha.1 (.cons hb.1 (.cons hc.1 (.cons hca (hrest hs))))⟩
        · obtain rfl := Option.some.inj hr
          exact ⟨_, rfl, .cons ha.1 .nil, .cons ha.1 (.cons hb.1 (.cons hca (hrest hs)))⟩
    | dup2 =>
      simp only [Shuffle.run, ha.2] at hr ⊢
      split_ifs at hr ⊢
      · cases hs with
        | nil => simp at hr
        | cons hb hs =>
          obtain rfl := Option.some.inj hr
          exact ⟨_, rfl, .cons hb.1 (.cons ha.1 .nil),
            .cons hca (.cons (hcopy _ _ hb.1) (.cons ha.1 (.cons hb.1 (hrest hs))))⟩
      · obtain rfl := Option.some.inj hr
        exact ⟨_, rfl, .cons ha.1 .nil, .cons hca (.cons ha.1 (hrest hs))⟩
    | dup2X1 =>
      cases hs with
      | nil => simp [Shuffle.run] at hr
      | cons hb hs =>
        have hcb := hcopy _ _ hb.1
        simp only [Shuffle.run, ha.2] at hr ⊢
        split_ifs at hr ⊢
        · cases hs with
          | nil => simp at hr
          | cons hc hs =>
            obtain rfl := Option.some.inj hr
            exact ⟨_, rfl, .cons hb.1 (.cons ha.1 .nil),
              .cons ha.1 (.cons hb.1 (.cons hc.1 (.cons hca (.cons hcb (hrest hs)))))⟩
        · obtain rfl := Option.some.inj hr
          exact ⟨_, rfl, .cons ha.1 .nil, .cons ha.1 (.cons hb.1 (.cons hca (hrest hs)))⟩
    | dup2X2 =>
      cases hs with
      | nil => simp [Shuffle.run] at hr
      | cons hb hs =>
        have hcb := hcopy _ _ hb.1
        simp only [Shuffle.run, ha.2, hb.2] at hr ⊢
        split_ifs at hr ⊢
        · cases hs with
          | nil => simp at hr
          | cons hc hs =>
            simp only [hc.2] at hr ⊢
            split_ifs at hr ⊢
            · cases hs with
              | nil => simp at hr
              | cons hd hs =>
                obtain rfl := Option.some.inj hr
                exact ⟨_, rfl, .cons hb.1 (.cons ha.1 .nil),
                  .cons ha.1 (.cons hb.1 (.cons hc.1 (.cons hd.1
                  (.cons hca (.cons hcb (hrest hs))))))⟩
            · obtain rfl := Option.some.inj hr
              exact ⟨_, rfl, .cons hb.1 (.cons ha.1 .nil),
                .cons ha.1 (.cons hb.1 (.cons hc.1 (.cons hca (.cons hcb (hrest hs)))))⟩
        · cases hs with
          | nil => simp at hr
          | cons hc hs =>
            obtain rfl := Option.some.inj hr
            exact ⟨_, rfl, .cons ha.1 .nil, .cons ha.1 (.cons hb.1 (.cons hc.1 (.cons hca (hrest hs))))⟩
        · obtain rfl := Option.some.inj hr
          exact ⟨_, rfl, .cons ha.1 .nil, .cons ha.1 (.cons hb.1 (.cons hca (hrest hs)))⟩
    | swap =>
      cases hs with
      | nil => simp [Shuffle.run] at hr
      | cons hb hs =>
        obtain rfl := Option.some.inj hr
        exact ⟨_, rfl, .cons ha.1 (.cons hb.1 .nil), .cons (hcopy _ _ hb.1) (.cons hca (hrest hs))⟩

/-! ## Instructions -/

theorem stepBinary_sim (hsim : d.SimAt e R id insn) (h : f.Rel R g) {pushes : Bool}
    {s : Step V} (hs : f.stepBinary d id insn pushes = .ok s) :
    ∃ t, g.stepBinary e id insn pushes = .ok t ∧ List.Forall₂ R s.1 t.1 ∧ s.2.Rel R t.2 := by
  obtain ⟨a, b, rest, hstack, rfl⟩ := stepBinary_eq_ok.mp hs
  have hrel := h.stack
  rw [hstack] at hrel
  obtain ⟨b', rest', hb, hrest, hstack'⟩ := List.forall₂_cons_left_iff.mp hrel
  obtain ⟨a', rest'', ha, hrest', rfl⟩ := List.forall₂_cons_left_iff.mp hrest
  exact ⟨_, stepBinary_eq_ok.mpr ⟨a', b', rest'', hstack', rfl⟩, .cons ha (.cons hb .nil),
    (h.withStack hrest').pushIf pushes (hsim.binary a b a' b' ha hb)⟩

theorem stepUnary_sim (hsim : d.SimAt e R id insn) (h : f.Rel R g) {pushes : Bool}
    {s : Step V} (hs : f.stepUnary d id insn pushes = .ok s) :
    ∃ t, g.stepUnary e id insn pushes = .ok t ∧ List.Forall₂ R s.1 t.1 ∧ s.2.Rel R t.2 := by
  obtain ⟨a, rest, hstack, rfl⟩ := stepUnary_eq_ok.mp hs
  have hrel := h.stack
  rw [hstack] at hrel
  obtain ⟨a', rest', ha, hrest, hstack'⟩ := List.forall₂_cons_left_iff.mp hrel
  exact ⟨_, stepUnary_eq_ok.mpr ⟨a', rest', hstack', rfl⟩, .cons ha .nil,
    (h.withStack hrest).pushIf pushes (hsim.unary a a' ha)⟩

theorem stepNary_sim (hsim : d.SimAt e R id insn) (h : f.Rel R g) {count : Nat}
    {pushes : Bool} {s : Step V} (hs : f.stepNary d id insn count pushes = .ok s) :
    ∃ t, g.stepNary e id insn count pushes = .ok t ∧ List.Forall₂ R s.1 t.1 ∧ s.2.Rel R t.2 := by
  obtain ⟨hcount, rfl⟩ := stepNary_eq_ok.mp hs
  have hoperands := List.rel_reverse (List.forall₂_take count h.stack)
  exact ⟨_, stepNary_eq_ok.mpr ⟨h.stack_length ▸ hcount, rfl⟩, hoperands,
    (h.drop count).pushIf pushes (hsim.nary _ _ hoperands)⟩

theorem stepStore_sim (hsim : d.SimAt e R id insn) (h : f.Rel R g) (hwidths : SameWidths d e f g)
    {s : Step V} (hs : f.stepStore d id insn = .ok s) :
    ∃ t, g.stepStore e id insn = .ok t ∧ List.Forall₂ R s.1 t.1 ∧ s.2.Rel R t.2 := by
  obtain ⟨var, a, rest, f', hvar, hstack, hset, rfl⟩ := stepStore_eq_ok.mp hs
  have hrel := h.stack
  have hsizes := hwidths.stack
  rw [hstack] at hrel hsizes
  obtain ⟨a', rest', ha, hrest, hstack'⟩ := List.forall₂_cons_left_iff.mp hrel
  rw [hstack', List.forall₂_cons] at hsizes
  obtain ⟨g', hset', hrel'⟩ := setLocal_sim hsim (h.withStack hrest)
    (Rel.withStack hwidths hsizes.2) (hsim.copy a a' ha)
    (hsim.copySize a a' ha hsizes.1) hset
  exact ⟨_, stepStore_eq_ok.mpr ⟨var, a', rest', g', hvar, hstack', hset', rfl⟩, .cons ha .nil, hrel'⟩

theorem stepIncrement_sim (hsim : d.SimAt e R id insn) (h : f.Rel R g) (hwidths : SameWidths d e f g)
    {s : Step V} (hs : f.stepIncrement d id insn = .ok s) :
    ∃ t, g.stepIncrement e id insn = .ok t ∧ List.Forall₂ R s.1 t.1 ∧ s.2.Rel R t.2 := by
  obtain ⟨var, delta, v, f', rfl, hv, hset, rfl⟩ := stepIncrement_eq_ok.mp hs
  obtain ⟨w, hw, hvw⟩ := h.getLocal hv
  obtain ⟨g', hset', hrel'⟩ := setLocal_sim hsim h hwidths (hsim.unary v w hvw)
    (hsim.increment var delta rfl v w hvw) hset
  exact ⟨_, stepIncrement_eq_ok.mpr ⟨var, delta, w, g', rfl, hw, hset', rfl⟩, .nil, hrel'⟩

theorem stepPop2_sim (h : f.Rel R g) (hwidths : SameWidths d e f g) {s : Step V}
    (hs : f.stepPop2 d = .ok s) :
    ∃ t, g.stepPop2 e = .ok t ∧ List.Forall₂ R s.1 t.1 ∧ s.2.Rel R t.2 := by
  have hrel := (h.and hwidths).stack
  rcases stepPop2_eq_ok.mp hs with ⟨a, b, rest, hstack, hsize, rfl⟩ | ⟨a, rest, hstack, hsize, rfl⟩
  · rw [hstack] at hrel
    obtain ⟨a', tail, ha, htail, hstack'⟩ := List.forall₂_cons_left_iff.mp hrel
    obtain ⟨b', rest', hb, hrest, rfl⟩ := List.forall₂_cons_left_iff.mp htail
    exact ⟨_, stepPop2_eq_ok.mpr (.inl ⟨a', b', rest', hstack', ha.2 ▸ hsize, rfl⟩),
      .cons hb.1 (.cons ha.1 .nil), h.locals, hrest.imp fun _ _ h => h.1⟩
  · rw [hstack] at hrel
    obtain ⟨a', rest', ha, hrest, hstack'⟩ := List.forall₂_cons_left_iff.mp hrel
    exact ⟨_, stepPop2_eq_ok.mpr (.inr ⟨a', rest', hstack', ha.2 ▸ hsize, rfl⟩),
      .cons ha.1 .nil, h.locals, hrest.imp fun _ _ h => h.1⟩

theorem stepShuffle_sim (hsim : d.SimAt e R id insn) (h : f.Rel R g) (hwidths : SameWidths d e f g)
    {kind : Shuffle} {s : Step V}
    (hs : f.stepShuffle d id insn kind = .ok s) :
    ∃ t, g.stepShuffle e id insn kind = .ok t ∧ List.Forall₂ R s.1 t.1 ∧ s.2.Rel R t.2 := by
  obtain ⟨moved, stack, hrun, rfl⟩ := stepShuffle_eq_ok.mp hs
  obtain ⟨⟨moved', stack'⟩, hrun', _, hrel⟩ :=
    shuffle_sim hsim.copy kind (h.and hwidths).stack hrun
  exact ⟨_, stepShuffle_eq_ok.mpr ⟨moved', stack', hrun', rfl⟩, .nil, h.locals, hrel⟩

/-- An instruction takes related frames to related frames and consumes related operands. -/
theorem step_simAt (hsim : d.SimAt e R id insn) (h : f.Rel R g) {code : UInt8}
    (hwidths : Opcode.readsWidths code = true → SameWidths d e f g) {s : Step V}
    (hs : f.step d id insn code = .ok s) :
    ∃ t, g.step e id insn code = .ok t ∧ List.Forall₂ R s.1 t.1 ∧ s.2.Rel R t.2 := by
  unfold step at hs ⊢
  unfold Opcode.readsWidths at hwidths
  cases heffect : Opcode.effect code with
  | nothing =>
    rw [heffect] at hs
    obtain rfl := Except.ok.inj hs
    exact ⟨_, rfl, .nil, h⟩
  | produce =>
    rw [heffect] at hs
    obtain rfl := Except.ok.inj hs
    exact ⟨_, rfl, .nil, h.push (hsim.produce)⟩
  | load =>
    simp only [heffect] at hs
    obtain ⟨var, hvar, hs⟩ := bind_eq_ok.mp hs
    obtain ⟨v, hv, hs⟩ := bind_eq_ok.mp hs
    obtain rfl := Except.ok.inj hs
    obtain ⟨w, hw, hvw⟩ := h.getLocal (getLocal_eq_ok.mp hv)
    simp only [hvar, getLocal_eq_ok.mpr hw, bind, Except.bind]
    exact ⟨_, rfl, .nil, h.push (hsim.copy v w hvw)⟩
  | store =>
    rw [heffect] at hs hwidths
    exact stepStore_sim hsim h (hwidths rfl) hs
  | storeElement =>
    rw [heffect] at hs
    exact h.pop hs
  | pop =>
    rw [heffect] at hs
    exact h.pop hs
  | pop2 =>
    rw [heffect] at hs hwidths
    exact stepPop2_sim h (hwidths rfl) hs
  | shuffle kind =>
    rw [heffect] at hs hwidths
    exact stepShuffle_sim hsim h (hwidths rfl) hs
  | binary pushes =>
    rw [heffect] at hs
    exact stepBinary_sim hsim h hs
  | unary pushes =>
    rw [heffect] at hs
    exact stepUnary_sim hsim h hs
  | increment =>
    rw [heffect] at hs hwidths
    exact stepIncrement_sim hsim h (hwidths rfl) hs
  | call =>
    simp only [heffect] at hs
    obtain ⟨⟨count, pushes⟩, hshape, hs⟩ := bind_eq_ok.mp hs
    simp only [hshape, bind, Except.bind]
    exact stepNary_sim hsim h hs
  | newMultiArray =>
    simp only [heffect] at hs
    split at hs
    · exact stepNary_sim hsim h hs
    · simp at hs
  | subroutine => simp [heffect] at hs
  | unsupported => simp [heffect] at hs

theorem step_sim (hsim : d.Sim e R) (h : f.Rel R g) {id : NodeId} {insn : Insn} {code : UInt8}
    (hwidths : Opcode.readsWidths code = true → SameWidths d e f g) {s : Step V}
    (hs : f.step d id insn code = .ok s) :
    ∃ t, g.step e id insn code = .ok t ∧ List.Forall₂ R s.1 t.1 ∧ s.2.Rel R t.2 :=
  step_simAt (hsim.at id insn) h hwidths hs

end Frame

end DirectCall
