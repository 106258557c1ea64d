import DirectCall.Proofs.Frame.Path

/-!
# One instruction

What an instruction takes off a frame and leaves on it, for any domain: the operands come off the
top of the stack (`pop_eq_ok`), the number of locals stays (`execute_locals_size`), and at most two
values come on top (`execute_stack_length_le`).
-/

namespace DirectCall.Frame

variable {V : Type}

theorem pop_eq_ok {f g : Frame V} {count : Nat} {operands : List V} :
    f.pop count = .ok (operands, g) ↔
      count ≤ f.stack.length ∧ operands = (f.stack.take count).reverse ∧
        g = ⟨f.locals, f.stack.drop count⟩ := by
  simp only [pop, List.splitAt_eq, List.length_take]
  constructor
  · intro h
    split_ifs at h with hcount
    · simp only [Except.ok.injEq, Prod.mk.injEq] at h
      exact ⟨by omega, h.1.symm, h.2.symm⟩
  · rintro ⟨hcount, rfl, rfl⟩
    rw [if_pos (by omega)]

theorem pop_locals {f g : Frame V} {count : Nat} {operands : List V}
    (h : f.pop count = .ok (operands, g)) : g.locals = f.locals := by
  obtain ⟨_, _, rfl⟩ := pop_eq_ok.mp h
  rfl

theorem cutWide_size (d : Domain V) (locals : Array V) (var : Nat) :
    (cutWide d locals var).size = locals.size := by
  unfold cutWide
  split
  · split_ifs <;> simp
  · rfl

theorem setLocal_locals_size {d : Domain V} {f g : Frame V} {var : Nat} {v : V}
    (h : f.setLocal d var v = .ok g) : g.locals.size = f.locals.size := by
  simp only [setLocal] at h
  split_ifs at h <;> simp only [Except.ok.injEq] at h <;> subst h <;> simp [cutWide_size]

theorem pushIf_locals (f : Frame V) (pushes : Bool) (v : V) : (f.pushIf pushes v).locals = f.locals := by
  cases pushes <;> rfl

theorem pop_cons {f : Frame V} {a : V} {rest : List V} (hs : f.stack = a :: rest) :
    f.pop 1 = .ok ([a], ⟨f.locals, rest⟩) :=
  pop_eq_ok.mpr ⟨by simp [hs], by simp [hs], by simp [hs]⟩

theorem pop_cons_cons {f : Frame V} {a b : V} {rest : List V} (hs : f.stack = b :: a :: rest) :
    f.pop 2 = .ok ([a, b], ⟨f.locals, rest⟩) :=
  pop_eq_ok.mpr ⟨by simp [hs], by simp [hs], by simp [hs]⟩

theorem stepBinary_eq_ok {d : Domain V} {id : NodeId} {insn : Insn} {pushes : Bool} {f : Frame V}
    {s : Step V} : stepBinary d id insn pushes f = .ok s ↔
      ∃ a b rest, f.stack = b :: a :: rest ∧
        s = ([a, b], pushIf ⟨f.locals, rest⟩ pushes (d.binary id insn a b)) := by
  constructor
  · intro h
    match hs : f.stack with
    | [] => simp [stepBinary, pop, hs, bind, Except.bind] at h
    | [_] => simp [stepBinary, pop, hs, bind, Except.bind] at h
    | b :: a :: rest =>
      rw [stepBinary, pop_cons_cons hs] at h
      simp only [bind, Except.bind, pure, Except.pure, Except.ok.injEq] at h
      exact ⟨a, b, rest, rfl, h.symm⟩
  · rintro ⟨a, b, rest, hs, rfl⟩
    rw [stepBinary, pop_cons_cons hs]
    rfl

theorem stepUnary_eq_ok {d : Domain V} {id : NodeId} {insn : Insn} {pushes : Bool} {f : Frame V}
    {s : Step V} : stepUnary d id insn pushes f = .ok s ↔
      ∃ a rest, f.stack = a :: rest ∧
        s = ([a], pushIf ⟨f.locals, rest⟩ pushes (d.unary id insn a)) := by
  constructor
  · intro h
    match hs : f.stack with
    | [] => simp [stepUnary, pop, hs, bind, Except.bind] at h
    | a :: rest =>
      rw [stepUnary, pop_cons hs] at h
      simp only [bind, Except.bind, pure, Except.pure, Except.ok.injEq] at h
      exact ⟨a, rest, rfl, h.symm⟩
  · rintro ⟨a, rest, hs, rfl⟩
    rw [stepUnary, pop_cons hs]
    rfl

theorem stepNary_eq_ok {d : Domain V} {id : NodeId} {insn : Insn} {count : Nat} {pushes : Bool}
    {f : Frame V} {s : Step V} : stepNary d id insn count pushes f = .ok s ↔
      count ≤ f.stack.length ∧
        s = ((f.stack.take count).reverse, pushIf ⟨f.locals, f.stack.drop count⟩ pushes
          (d.nary id insn (f.stack.take count).reverse)) := by
  constructor
  · intro h
    obtain ⟨⟨operands, below⟩, hpop, h⟩ := bind_eq_ok.mp h
    obtain ⟨hcount, rfl, rfl⟩ := pop_eq_ok.mp hpop
    simp only [pure, Except.pure, Except.ok.injEq] at h
    exact ⟨hcount, h.symm⟩
  · rintro ⟨hcount, rfl⟩
    rw [stepNary, pop_eq_ok.mpr ⟨hcount, rfl, rfl⟩]
    rfl

theorem stepStore_eq_ok {d : Domain V} {id : NodeId} {insn : Insn} {f : Frame V}
    {s : Step V} : stepStore d id insn f = .ok s ↔
      ∃ var a rest g, localOperand insn = .ok var ∧ f.stack = a :: rest ∧
        setLocal d ⟨f.locals, rest⟩ var (d.copy id insn a) = .ok g ∧ s = ([a], g) := by
  constructor
  · intro h
    obtain ⟨var, hvar, h⟩ := bind_eq_ok.mp h
    match hs : f.stack with
    | [] => simp [pop, hs, bind, Except.bind] at h
    | a :: rest =>
      obtain ⟨popped, hpop, h⟩ := bind_eq_ok.mp h
      rw [pop_cons hs, Except.ok.injEq] at hpop
      subst hpop
      obtain ⟨g, hg, h⟩ := bind_eq_ok.mp h
      simp only [pure, Except.pure, Except.ok.injEq] at h
      exact ⟨var, a, rest, g, hvar, rfl, hg, h.symm⟩
  · rintro ⟨var, a, rest, g, hvar, hs, hg, rfl⟩
    rw [stepStore, hvar, pop_cons hs]
    simp only [bind, Except.bind, hg]
    rfl

theorem getLocal_eq_ok {f : Frame V} {var : Nat} {v : V} :
    f.getLocal var = .ok v ↔ f.locals[var]? = some v := by
  unfold getLocal
  split
  · rename_i w hw
    simp [hw]
  · rename_i hnone
    simp [hnone]

theorem stepIncrement_eq_ok {d : Domain V} {id : NodeId} {insn : Insn} {f : Frame V}
    {s : Step V} : stepIncrement d id insn f = .ok s ↔
      ∃ var delta v g, insn = .iinc var delta ∧ f.locals[var.toNat]? = some v ∧
        f.setLocal d var.toNat (d.unary id insn v) = .ok g ∧ s = ([], g) := by
  constructor
  · intro h
    unfold stepIncrement at h
    split at h
    · rename_i var delta
      obtain ⟨v, hv, h⟩ := bind_eq_ok.mp h
      obtain ⟨g, hg, h⟩ := bind_eq_ok.mp h
      simp only [pure, Except.pure, Except.ok.injEq] at h
      exact ⟨var, delta, v, g, rfl, getLocal_eq_ok.mp hv, hg, h.symm⟩
    · simp [throw, throwThe, MonadExceptOf.throw] at h
  · rintro ⟨var, delta, v, g, rfl, hv, hg, rfl⟩
    simp only [stepIncrement, getLocal_eq_ok.mpr hv, bind, Except.bind, hg]
    rfl

theorem stepPop2_eq_ok {d : Domain V} {f : Frame V} {s : Step V} : stepPop2 d f = .ok s ↔
    (∃ a b rest, f.stack = a :: b :: rest ∧ d.size a = 1 ∧ s = ([b, a], ⟨f.locals, rest⟩)) ∨
      ∃ a rest, f.stack = a :: rest ∧ d.size a ≠ 1 ∧ s = ([a], ⟨f.locals, rest⟩) := by
  unfold stepPop2
  match hs : f.stack with
  | [] => simp
  | [a] => by_cases ha : d.size a = 1 <;> simp [ha, eq_comm (b := s)]
  | a :: b :: rest => by_cases ha : d.size a = 1 <;> simp [ha, eq_comm (b := s)]

theorem stepShuffle_eq_ok {d : Domain V} {id : NodeId} {insn : Insn} {kind : Shuffle} {f : Frame V}
    {s : Step V} : stepShuffle d id insn kind f = .ok s ↔
      ∃ moved stack, kind.run d.size (d.copy id insn) f.stack = some (moved, stack) ∧
        s = ([], ⟨f.locals, stack⟩) := by
  unfold stepShuffle
  split
  · rename_i moved stack hrun
    simp [hrun, eq_comm]
  · rename_i hrun
    simp [hrun]

/-! ## The locals -/

/-- A step other than a store and an increment leaves the locals as they are. -/
theorem step_locals_of_effect {d : Domain V} {id : NodeId} {insn : Insn} {code : UInt8} {f : Frame V}
    {s : Step V} (hstore : Opcode.effect code ≠ .store) (hincrement : Opcode.effect code ≠ .increment)
    (h : step d id insn code f = .ok s) : s.2.locals = f.locals := by
  unfold step at h
  split at h
  case h_1 =>
    obtain rfl := Except.ok.inj h
    rfl
  case h_2 =>
    obtain rfl := Except.ok.inj h
    rfl
  case h_3 =>
    obtain ⟨var, _, h⟩ := bind_eq_ok.mp h
    obtain ⟨v, _, h⟩ := bind_eq_ok.mp h
    obtain rfl := Except.ok.inj h
    rfl
  case h_4 heffect => exact absurd heffect hstore
  case h_5 => exact pop_locals h
  case h_6 => exact pop_locals h
  case h_7 =>
    rcases stepPop2_eq_ok.mp h with ⟨a, b, rest, _, _, rfl⟩ | ⟨a, rest, _, _, rfl⟩
    · rfl
    · rfl
  case h_8 kind _ =>
    obtain ⟨moved, stack, _, rfl⟩ := stepShuffle_eq_ok.mp h
    rfl
  case h_9 =>
    obtain ⟨a, b, rest, _, rfl⟩ := stepBinary_eq_ok.mp h
    exact pushIf_locals _ _ _
  case h_10 =>
    obtain ⟨a, rest, _, rfl⟩ := stepUnary_eq_ok.mp h
    exact pushIf_locals _ _ _
  case h_11 heffect => exact absurd heffect hincrement
  case h_12 =>
    obtain ⟨shape, _, h⟩ := bind_eq_ok.mp h
    obtain ⟨_, rfl⟩ := stepNary_eq_ok.mp h
    exact pushIf_locals _ _ _
  case h_13 =>
    split at h
    · obtain ⟨_, rfl⟩ := stepNary_eq_ok.mp h
      exact pushIf_locals _ _ _
    · cases h
  case h_14 => cases h
  case h_15 => cases h

/-- An instruction leaves the locals as they are, or stores into one of them. -/
theorem step_locals {d : Domain V} {id : NodeId} {insn : Insn} {code : UInt8} {f : Frame V}
    {s : Step V} (h : step d id insn code f = .ok s) :
    s.2.locals = f.locals ∨ ∃ (g : Frame V) (var : Nat) (v : V),
      g.locals = f.locals ∧ g.setLocal d var v = .ok s.2 := by
  by_cases hstore : Opcode.effect code = .store
  · unfold step at h
    rw [hstore] at h
    obtain ⟨var, a, rest, g, _, _, hg, rfl⟩ := stepStore_eq_ok.mp h
    exact .inr ⟨⟨f.locals, rest⟩, var, _, rfl, hg⟩
  · by_cases hincrement : Opcode.effect code = .increment
    · unfold step at h
      rw [hincrement] at h
      obtain ⟨var, delta, v, g, _, _, hg, rfl⟩ := stepIncrement_eq_ok.mp h
      exact .inr ⟨f, var.toNat, _, rfl, hg⟩
    · exact .inl (step_locals_of_effect hstore hincrement h)

theorem step_locals_size {d : Domain V} {id : NodeId} {insn : Insn} {code : UInt8} {f : Frame V}
    {s : Step V} (h : step d id insn code f = .ok s) : s.2.locals.size = f.locals.size := by
  rcases step_locals h with hsame | ⟨g, var, v, hg, hset⟩
  · rw [hsame]
  · rw [setLocal_locals_size hset, hg]

theorem replaceAll_locals_size [DecidableEq V] (f : Frame V) (changes : List (V × V)) :
    (f.replaceAll changes).locals.size = f.locals.size := by
  unfold replaceAll
  induction changes generalizing f with
  | nil => rfl
  | cons change rest ih =>
    rw [List.foldl_cons, ih]
    simp [replace]

theorem execute_locals_size [DecidableEq V] {d : Domain V} {id : NodeId} {insn : Insn}
    {f g : Frame V} (h : f.execute d id insn = .ok g) : g.locals.size = f.locals.size := by
  unfold execute at h
  split at h
  · simp only [Except.ok.injEq] at h
    rw [h]
  · obtain ⟨s, hs, h⟩ := bind_eq_ok.mp h
    simp only [pure, Except.pure, Except.ok.injEq] at h
    rw [← h, replaceAll_locals_size, step_locals_size hs]

/-! ## The height of the stack -/

theorem shuffle_length_le {kind : Shuffle} {size : V → Nat} {copy : V → V} {stack moved result : List V}
    (h : kind.run size copy stack = some (moved, result)) : result.length ≤ stack.length + 2 := by
  unfold Shuffle.run at h
  split at h
  case h_8 => simp at h
  all_goals repeat' split at h
  all_goals simp only [Option.some.injEq, Prod.mk.injEq, reduceCtorEq] at h
  all_goals
    obtain ⟨_, rfl⟩ := h
    simp

theorem pushIf_stack_length_le (f : Frame V) (pushes : Bool) (v : V) :
    (f.pushIf pushes v).stack.length ≤ f.stack.length + 1 := by
  cases pushes <;> simp [pushIf, push]

theorem setLocal_stack {d : Domain V} {f g : Frame V} {var : Nat} {v : V}
    (h : f.setLocal d var v = .ok g) : g.stack = f.stack := by
  simp only [setLocal] at h
  split_ifs at h <;> simp only [Except.ok.injEq] at h <;> subst h <;> rfl

theorem stepNary_stack_length_le {d : Domain V} {id : NodeId} {insn : Insn} {count : Nat}
    {pushes : Bool} {f : Frame V} {s : Step V} (h : stepNary d id insn count pushes f = .ok s) :
    s.2.stack.length ≤ f.stack.length + 1 := by
  obtain ⟨_, rfl⟩ := stepNary_eq_ok.mp h
  have hpushed := pushIf_stack_length_le ⟨f.locals, f.stack.drop count⟩ pushes
    (d.nary id insn (f.stack.take count).reverse)
  rw [List.length_drop] at hpushed
  exact Nat.le_trans hpushed (by omega)

theorem pop_stack_length_le {f g : Frame V} {count : Nat} {operands : List V}
    (h : f.pop count = .ok (operands, g)) : g.stack.length ≤ f.stack.length := by
  obtain ⟨_, _, rfl⟩ := pop_eq_ok.mp h
  simp

theorem step_stack_length_le {d : Domain V} {id : NodeId} {insn : Insn} {code : UInt8} {f : Frame V}
    {s : Step V} (h : step d id insn code f = .ok s) : s.2.stack.length ≤ f.stack.length + 2 := by
  unfold step at h
  split at h
  case h_1 =>
    simp only [Except.ok.injEq] at h
    simp [← h]
  case h_2 =>
    simp only [Except.ok.injEq] at h
    simp [← h, push]
  case h_3 =>
    obtain ⟨var, _, h⟩ := bind_eq_ok.mp h
    obtain ⟨v, _, h⟩ := bind_eq_ok.mp h
    simp only [pure, Except.pure, Except.ok.injEq] at h
    simp [← h, push]
  case h_4 =>
    obtain ⟨var, a, rest, g, _, hstack, hg, rfl⟩ := stepStore_eq_ok.mp h
    simp only [setLocal_stack hg, hstack, List.length_cons]
    omega
  case h_5 => exact Nat.le_add_right_of_le (pop_stack_length_le h)
  case h_6 => exact Nat.le_add_right_of_le (pop_stack_length_le h)
  case h_7 =>
    rcases stepPop2_eq_ok.mp h with ⟨a, b, rest, hstack, _, rfl⟩ | ⟨a, rest, hstack, _, rfl⟩
    · simp only [hstack, List.length_cons]
      omega
    · simp only [hstack, List.length_cons]
      omega
  case h_8 kind _ =>
    obtain ⟨moved, stack, hrun, rfl⟩ := stepShuffle_eq_ok.mp h
    exact shuffle_length_le hrun
  case h_9 pushes _ =>
    obtain ⟨a, b, rest, hstack, rfl⟩ := stepBinary_eq_ok.mp h
    have hpushed := pushIf_stack_length_le ⟨f.locals, rest⟩ pushes (d.binary id insn a b)
    rw [hstack, List.length_cons, List.length_cons]
    exact Nat.le_trans hpushed (by simp only; omega)
  case h_10 pushes _ =>
    obtain ⟨a, rest, hstack, rfl⟩ := stepUnary_eq_ok.mp h
    have hpushed := pushIf_stack_length_le ⟨f.locals, rest⟩ pushes (d.unary id insn a)
    rw [hstack, List.length_cons]
    exact Nat.le_trans hpushed (by simp only; omega)
  case h_11 =>
    obtain ⟨var, delta, v, g, _, _, hg, rfl⟩ := stepIncrement_eq_ok.mp h
    simp [setLocal_stack hg]
  case h_12 =>
    obtain ⟨shape, _, h⟩ := bind_eq_ok.mp h
    exact Nat.le_succ_of_le (stepNary_stack_length_le h)
  case h_13 =>
    split at h
    · exact Nat.le_succ_of_le (stepNary_stack_length_le h)
    · simp at h
  case h_14 => simp at h
  case h_15 => simp at h

theorem replaceAll_stack_length [DecidableEq V] (f : Frame V) (changes : List (V × V)) :
    (f.replaceAll changes).stack.length = f.stack.length := by
  unfold replaceAll
  induction changes generalizing f with
  | nil => rfl
  | cons change rest ih =>
    rw [List.foldl_cons, ih]
    simp [replace]

theorem execute_stack_length_le [DecidableEq V] {d : Domain V} {id : NodeId} {insn : Insn}
    {f g : Frame V} (h : f.execute d id insn = .ok g) : g.stack.length ≤ f.stack.length + 2 := by
  unfold execute at h
  split at h
  · simp only [Except.ok.injEq] at h
    rw [h]
    omega
  · obtain ⟨s, hs, h⟩ := bind_eq_ok.mp h
    simp only [pure, Except.pure, Except.ok.injEq] at h
    rw [← h, replaceAll_stack_length]
    exact step_stack_length_le hs

end DirectCall.Frame
