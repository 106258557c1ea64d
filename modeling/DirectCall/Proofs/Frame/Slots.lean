import DirectCall.Constants.Domain
import DirectCall.Proofs.Frame.Step
import DirectCall.Verification.Type

/-!
# Stack instructions by slots

The operand stack of a frame has one entry for each value, while the instructions that rearrange it are
defined on slots, of which a wide value takes two. Written out slot by slot (`Frame.written`), every such
instruction takes the top slots off, copies them further down, or exchanges two (`SlotMove.run`). If it cuts no
value in half, executing it does just that to the slots of the stack (`Frame.execute_slots`). It cuts none
exactly if what it leaves are the slots of a stack again (`Frame.cutsNone_of_run`); of constants and of
verification types that stack is the one left (`Domain.KeepsMoved.execute`).
-/

namespace DirectCall

/-- What an instruction does to the top of a stack of slots. -/
inductive SlotMove where
  | pop (count : Nat)
  /-- Copies the top `count` slots, and puts the copies below the `under` slots that follow these. -/
  | dup (count under : Nat)
  | swap
  deriving DecidableEq, Repr

namespace SlotMove

variable {α : Type}

/-- The instructions that rearrange the stack. -/
def ofOpcode? (code : UInt8) : Option SlotMove :=
  if code = Opcode.pop then some (.pop 1)
  else if code = Opcode.pop2 then some (.pop 2)
  else if code = Opcode.dup then some (.dup 1 0)
  else if code = Opcode.dupX1 then some (.dup 1 1)
  else if code = Opcode.dupX2 then some (.dup 1 2)
  else if code = Opcode.dup2 then some (.dup 2 0)
  else if code = Opcode.dup2X1 then some (.dup 2 1)
  else if code = Opcode.dup2X2 then some (.dup 2 2)
  else if code = Opcode.swap then some .swap
  else none

/-- Slots that must be there. -/
def depth : SlotMove → Nat
  | pop count => count
  | dup count under => count + under
  | swap => 2

/-- The effect on slots, the top one first. -/
def run : SlotMove → List α → List α
  | pop count, slots => slots.drop count
  | dup count under, slots => slots.take (count + under) ++ (slots.take count ++ slots.drop (count + under))
  | swap, x :: y :: slots => y :: x :: slots
  | swap, slots => slots

/-- Slots of which no copy stays. -/
def gone : SlotMove → List α → List α
  | pop count, slots => slots.take count
  | _, _ => []

/-- Depths at which neighbours may come apart. -/
def seams : SlotMove → List Nat
  | pop count => [count]
  | dup count under => [count, count + under]
  | swap => [1, 2]

end SlotMove

/-- What a shuffle does to slots. -/
def Shuffle.slotMove : Shuffle → SlotMove
  | .dup => .dup 1 0
  | .dupX1 => .dup 1 1
  | .dupX2 => .dup 1 2
  | .dup2 => .dup 2 0
  | .dup2X1 => .dup 2 1
  | .dup2X2 => .dup 2 2
  | .swap => .swap

namespace Frame

variable {V : Type} {size : V → Nat}

/-- The slots of a stack, the top one first. Each names its value, and which slot of that value it is. -/
def written (size : V → Nat) (stack : List V) : List (V × Nat) :=
  stack.flatMap fun v => (List.range (size v)).map fun part => (v, part)

/-- No seam of the instruction lies inside a value. -/
def CutsNone (move : SlotMove) (slots : List (V × Nat)) : Prop :=
  ∀ depth ∈ move.seams, ∀ v part, slots[depth]? = some (v, part) → part = 0

/-! ## Stacks and their slots -/

@[simp] theorem written_nil : written size [] = [] := rfl

theorem written_cons (v : V) (stack : List V) :
    written size (v :: stack) = ((List.range (size v)).map fun part => (v, part)) ++ written size stack := rfl

@[simp] theorem written_append (front back : List V) :
    written size (front ++ back) = written size front ++ written size back := List.flatMap_append

@[simp] theorem length_written_cons (v : V) (stack : List V) :
    (written size (v :: stack)).length = size v + (written size stack).length := by
  simp [written_cons]

theorem getElem?_written_cons (v : V) (stack : List V) (k : Nat) :
    (written size (v :: stack))[k]? = if k < size v then some (v, k) else (written size stack)[k - size v]? := by
  rw [written_cons]
  split_ifs with hk
  · rw [List.getElem?_append_left (by simpa using hk)]
    simp [hk]
  · rw [List.getElem?_append_right (by simpa using hk)]
    simp

/-- At a depth that is not inside a value the stack comes apart. -/
theorem exists_split {stack : List V} {k : Nat} (hk : k ≤ (written size stack).length)
    (hwhole : ∀ v part, (written size stack)[k]? = some (v, part) → part = 0) :
    ∃ front back, stack = front ++ back ∧ (written size front).length = k := by
  induction stack generalizing k with
  | nil => exact ⟨[], [], rfl, (Nat.le_zero.mp hk).symm⟩
  | cons v rest ih =>
    rw [length_written_cons] at hk
    rw [getElem?_written_cons] at hwhole
    split_ifs at hwhole with hinside
    · obtain rfl := hwhole v k rfl
      exact ⟨[], v :: rest, rfl, rfl⟩
    · obtain ⟨front, back, rfl, hlength⟩ := ih (k := k - size v) (by omega) hwhole
      exact ⟨v :: front, back, rfl, by rw [length_written_cons]; omega⟩

/-- Neighbours of a slot inside its value. -/
theorem neighbours {stack : List V} {k : Nat} {v : V} {part : Nat}
    (h : (written size stack)[k]? = some (v, part)) :
    part < size v ∧ (part ≠ 0 → 0 < k ∧ (written size stack)[k - 1]? = some (v, part - 1)) ∧
      (part + 1 < size v → (written size stack)[k + 1]? = some (v, part + 1)) := by
  induction stack generalizing k with
  | nil => simp at h
  | cons w rest ih =>
    simp only [getElem?_written_cons] at h ⊢
    split_ifs at h with hk
    · obtain ⟨rfl, rfl⟩ := Prod.mk.inj (Option.some.inj h)
      refine ⟨hk, fun hpos => ⟨Nat.pos_of_ne_zero hpos, ?_⟩, fun hnext => ?_⟩
      · rw [if_pos (by omega)]
      · rw [if_pos hnext]
    · obtain ⟨hpart, hback, hnext⟩ := ih h
      refine ⟨hpart, fun hpos => ?_, fun hlt => ?_⟩
      · obtain ⟨hpos', hback⟩ := hback hpos
        rw [if_neg (by omega), Nat.sub_right_comm]
        exact ⟨by omega, hback⟩
      · rw [if_neg (by omega), Nat.sub_add_comm (Nat.le_of_not_lt hk)]
        exact hnext hlt

theorem length_written_zero {stack : List V} (hwidths : ∀ v ∈ stack, size v = 1 ∨ size v = 2)
    (h : (written size stack).length = 0) : stack = [] := by
  match stack with
  | [] => rfl
  | v :: rest =>
    have hv := hwidths v (by simp)
    rw [length_written_cons] at h
    omega

theorem length_written_one {stack : List V} (hwidths : ∀ v ∈ stack, size v = 1 ∨ size v = 2)
    (h : (written size stack).length = 1) : ∃ a, stack = [a] ∧ size a = 1 := by
  match stack with
  | [] => simp at h
  | a :: rest =>
    have ha := hwidths a (by simp)
    rw [length_written_cons] at h
    have hrest : (written size rest).length = 0 := by omega
    obtain rfl := length_written_zero (fun v hv => hwidths v (by simp [hv])) hrest
    exact ⟨a, rfl, by simpa using h⟩

theorem length_written_two {stack : List V} (hwidths : ∀ v ∈ stack, size v = 1 ∨ size v = 2)
    (h : (written size stack).length = 2) :
    (∃ a b, stack = [a, b] ∧ size a = 1 ∧ size b = 1) ∨ ∃ a, stack = [a] ∧ size a = 2 := by
  match stack with
  | [] => simp at h
  | a :: rest =>
    rw [length_written_cons] at h
    have hrest : ∀ v ∈ rest, size v = 1 ∨ size v = 2 := fun v hv => hwidths v (by simp [hv])
    rcases hwidths a (by simp) with ha | ha
    · obtain ⟨b, rfl, hb⟩ := length_written_one hrest (by omega)
      exact .inl ⟨a, b, rfl, ha, hb⟩
    · obtain rfl := length_written_zero hrest (by omega)
      exact .inr ⟨a, rfl, ha⟩

/-! ## What an uncut move does to the values -/

theorem exists_pop {stack : List V} {count : Nat} (hdepth : count ≤ (written size stack).length)
    (huncut : CutsNone (.pop count) (written size stack)) :
    ∃ top rest, stack = top ++ rest ∧ (written size top).length = count :=
  exists_split hdepth (huncut count (by simp [SlotMove.seams]))

/-- The slots that are copied, and those that they are put below, are both those of whole values. -/
theorem exists_dup {stack : List V} {count under : Nat}
    (hdepth : count + under ≤ (written size stack).length)
    (huncut : CutsNone (.dup count under) (written size stack)) :
    ∃ top mid rest, stack = top ++ (mid ++ rest) ∧ (written size top).length = count ∧
      (written size mid).length = under := by
  obtain ⟨top, below, rfl, htop⟩ :=
    exists_split (by omega) (huncut count (by simp [SlotMove.seams]))
  have hseam := huncut (count + under) (by simp [SlotMove.seams])
  rw [written_append, ← htop, List.getElem?_append_right (by omega), Nat.add_sub_cancel_left] at hseam
  rw [written_append, List.length_append] at hdepth
  obtain ⟨mid, rest, rfl, hmid⟩ := exists_split (by omega) hseam
  exact ⟨top, mid, rest, rfl, htop, hmid⟩

theorem exists_swap {stack : List V} (hwidths : ∀ v ∈ stack, size v = 1 ∨ size v = 2)
    (hdepth : 2 ≤ (written size stack).length) (huncut : CutsNone .swap (written size stack)) :
    ∃ a b rest, stack = a :: b :: rest ∧ size a = 1 ∧ size b = 1 := by
  -- the seams of an exchange are those of a copy of one slot below one other
  have huncut' : CutsNone (.dup 1 1) (written size stack) := huncut
  obtain ⟨top, mid, rest, rfl, htop, hmid⟩ := exists_dup hdepth huncut'
  obtain ⟨a, rfl, ha⟩ := length_written_one (fun v hv => hwidths v (by simp [hv])) htop
  obtain ⟨b, rfl, hb⟩ := length_written_one (fun v hv => hwidths v (by simp [hv])) hmid
  exact ⟨a, b, rest, rfl, ha, hb⟩

theorem run_dup_written {top mid rest : List V} {count under : Nat}
    (htop : (written size top).length = count) (hmid : (written size mid).length = under) :
    (SlotMove.dup count under).run (written size (top ++ (mid ++ rest))) =
      written size (top ++ (mid ++ (top ++ rest))) := by
  have hfront : (written size top ++ written size mid).length = count + under := by simp [htop, hmid]
  simp only [SlotMove.run, written_append]
  rw [List.take_left' htop, ← List.append_assoc (written size top) (written size mid) (written size rest),
    List.take_left' hfront, List.drop_left' hfront, List.append_assoc]

/-! ## Cut values -/

theorem part_eq_zero_of_top {stack : List V} {v : V} {part : Nat}
    (h : (written size stack)[0]? = some (v, part)) : part = 0 := by
  by_contra hpart
  exact absurd ((neighbours h).2.1 hpart).1 (Nat.lt_irrefl 0)

/-- A slot is not inside a value if another stack continues what is above it differently. -/
theorem part_eq_zero_of_continued {stack after : List V} {k j : Nat} {v : V} {part : Nat}
    (hsame : (written size after)[j]? = (written size stack)[k - 1]?)
    (hcontinued : ∀ w next, (written size after)[j + 1]? = some (w, next) → next = 0)
    (h : (written size stack)[k]? = some (v, part)) : part = 0 := by
  by_contra hpart
  obtain ⟨hinside, habove, _⟩ := neighbours h
  obtain ⟨_, habove⟩ := habove hpart
  obtain ⟨_, _, hbelow⟩ := neighbours (hsame.trans habove)
  exact hpart (hcontinued v part (by rw [hbelow (by omega), Nat.sub_add_cancel (by omega)]))

theorem cutsNone_pop {stack after : List V} {count : Nat}
    (hafter : written size after = (SlotMove.pop count).run (written size stack)) :
    CutsNone (.pop count) (written size stack) := by
  intro depth hseam v part hv
  obtain rfl : depth = count := by simpa [SlotMove.seams] using hseam
  have htop : (written size after)[0]? = some (v, part) := by
    rw [hafter, SlotMove.run, List.getElem?_drop, Nat.add_zero, hv]
  exact part_eq_zero_of_top htop

theorem cutsNone_dup {stack after : List V} {count under : Nat} (hcount : 0 < count)
    (hdepth : count + under ≤ (written size stack).length)
    (hafter : written size after = (SlotMove.dup count under).run (written size stack)) :
    CutsNone (.dup count under) (written size stack) := by
  have hlength : ((written size stack).take (count + under)).length = count + under :=
    List.length_take_of_le hdepth
  have hcopied : ((written size stack).take count).length = count := List.length_take_of_le (by omega)
  have hfront {k : Nat} (hk : k < count + under) : (written size after)[k]? = (written size stack)[k]? := by
    rw [hafter, SlotMove.run, List.getElem?_append_left (by omega), List.getElem?_take_of_lt hk]
  have hback (k : Nat) : (written size after)[count + under + k]? =
      ((written size stack).take count ++ (written size stack).drop (count + under))[k]? := by
    rw [hafter, SlotMove.run, List.getElem?_append_right (by omega), hlength, Nat.add_sub_cancel_left]
  -- the copies follow the slots that they are put below, and start at the top of a value
  have hunder : ∀ v part, (written size stack)[count + under]? = some (v, part) → part = 0 := by
    intro v part hv
    have hlast : (written size after)[count + under - 1]? = (written size stack)[count + under - 1]? :=
      hfront (by omega)
    refine part_eq_zero_of_continued hlast (fun w next hw => ?_) hv
    rw [Nat.sub_add_cancel (by omega), ← Nat.add_zero (count + under), hback,
      List.getElem?_append_left (by omega), List.getElem?_take_of_lt hcount] at hw
    exact part_eq_zero_of_top hw
  intro depth hseam v part hv
  rcases (by simpa [SlotMove.seams] using hseam : depth = count ∨ depth = count + under) with rfl | rfl
  · -- what is below the copies has just been seen not to start inside a value
    have hlast : (written size after)[depth + under + (depth - 1)]? = (written size stack)[depth - 1]? := by
      rw [hback, List.getElem?_append_left (by omega), List.getElem?_take_of_lt (by omega)]
    refine part_eq_zero_of_continued hlast (fun w next hw => hunder w next ?_) hv
    rwa [Nat.add_assoc, Nat.sub_add_cancel hcount, hback, List.getElem?_append_right (by omega),
      hcopied, Nat.sub_self, List.getElem?_drop, Nat.add_zero] at hw
  · exact hunder v part hv

theorem cutsNone_swap {stack after : List V} (hdepth : 2 ≤ (written size stack).length)
    (hafter : written size after = SlotMove.swap.run (written size stack)) :
    CutsNone .swap (written size stack) := by
  obtain ⟨x, y, slots, hslots⟩ : ∃ x y slots, written size stack = x :: y :: slots := by
    match hslots : written size stack with
    | [] => simp [hslots] at hdepth
    | [_] => simp [hslots] at hdepth
    | x :: y :: slots => exact ⟨x, y, slots, rfl⟩
  have hswapped : written size after = y :: x :: slots := by rw [hafter, hslots, SlotMove.run]
  intro depth hseam v part hv
  rcases (by simpa [SlotMove.seams] using hseam : depth = 1 ∨ depth = 2) with rfl | rfl
  · have htop : (written size after)[0]? = some (v, part) := by simpa [hswapped, hslots] using hv
    exact part_eq_zero_of_top htop
  · have hlast : (written size after)[0]? = (written size stack)[2 - 1]? := by simp [hswapped, hslots]
    refine part_eq_zero_of_continued hlast (fun w next hw => ?_) hv
    have htop : (written size stack)[0]? = some (w, next) := by simpa [hswapped, hslots] using hw
    exact part_eq_zero_of_top htop

/-! ## What the instructions do to the values -/

section Shuffles

variable {copy : V → V} {kind : Shuffle} {stack : List V}

theorem run_dup_values {top mid : List V} {count under : Nat} (rest : List V) (hcopy : ∀ v, copy v = v)
    (hkind : kind.slotMove = .dup count under)
    (htops : ∀ v ∈ top, size v = 1 ∨ size v = 2) (hmids : ∀ v ∈ mid, size v = 1 ∨ size v = 2)
    (htop : (written size top).length = count) (hmid : (written size mid).length = under) :
    ∃ moved, kind.run size copy (top ++ (mid ++ rest)) = some (moved, top ++ (mid ++ (top ++ rest))) := by
  cases kind <;> simp only [Shuffle.slotMove, SlotMove.dup.injEq, reduceCtorEq] at hkind
  all_goals obtain ⟨rfl, rfl⟩ := hkind
  case dup =>
    obtain ⟨a, rfl, ha⟩ := length_written_one htops htop
    obtain rfl := length_written_zero hmids hmid
    exact ⟨[a], by simp [Shuffle.run, hcopy]⟩
  case dupX1 =>
    obtain ⟨a, rfl, ha⟩ := length_written_one htops htop
    obtain ⟨b, rfl, hb⟩ := length_written_one hmids hmid
    exact ⟨[a], by simp [Shuffle.run, hcopy]⟩
  case dupX2 =>
    obtain ⟨a, rfl, ha⟩ := length_written_one htops htop
    rcases length_written_two hmids hmid with ⟨b, c, rfl, hb, hc⟩ | ⟨b, rfl, hb⟩
    · exact ⟨[a], by simp [Shuffle.run, hcopy, hb]⟩
    · exact ⟨[a], by simp [Shuffle.run, hcopy, hb]⟩
  case dup2 =>
    obtain rfl := length_written_zero hmids hmid
    rcases length_written_two htops htop with ⟨a, b, rfl, ha, hb⟩ | ⟨a, rfl, ha⟩
    · exact ⟨[b, a], by simp [Shuffle.run, hcopy, ha]⟩
    · exact ⟨[a], by simp [Shuffle.run, hcopy, ha]⟩
  case dup2X1 =>
    obtain ⟨c, rfl, hc⟩ := length_written_one hmids hmid
    rcases length_written_two htops htop with ⟨a, b, rfl, ha, hb⟩ | ⟨a, rfl, ha⟩
    · exact ⟨[b, a], by simp [Shuffle.run, hcopy, ha]⟩
    · exact ⟨[a], by simp [Shuffle.run, hcopy, ha]⟩
  case dup2X2 =>
    rcases length_written_two htops htop with ⟨a, b, rfl, ha, hb⟩ | ⟨a, rfl, ha⟩
    · rcases length_written_two hmids hmid with ⟨c, e, rfl, hc, he⟩ | ⟨c, rfl, hc⟩
      · exact ⟨[b, a], by simp [Shuffle.run, hcopy, ha, hc]⟩
      · exact ⟨[b, a], by simp [Shuffle.run, hcopy, ha, hc]⟩
    · rcases length_written_two hmids hmid with ⟨c, e, rfl, hc, he⟩ | ⟨c, rfl, hc⟩
      · exact ⟨[a], by simp [Shuffle.run, hcopy, ha, hc]⟩
      · exact ⟨[a], by simp [Shuffle.run, hcopy, ha, hc]⟩

/-- On a stack that is not cut a shuffle does to the slots what it says of them. -/
theorem shuffle_slots (hcopy : ∀ v, copy v = v) (hwidths : ∀ v ∈ stack, size v = 1 ∨ size v = 2)
    (hdepth : kind.slotMove.depth ≤ (written size stack).length)
    (huncut : CutsNone kind.slotMove (written size stack)) :
    ∃ moved after, kind.run size copy stack = some (moved, after) ∧
      written size after = kind.slotMove.run (written size stack) := by
  cases hmove : kind.slotMove with
  | pop count => cases kind <;> simp [Shuffle.slotMove] at hmove
  | dup count under =>
    rw [hmove] at hdepth huncut
    obtain ⟨top, mid, rest, rfl, htop, hmid⟩ := exists_dup hdepth huncut
    have htops : ∀ v ∈ top, size v = 1 ∨ size v = 2 := fun v hv => hwidths v (by simp [hv])
    have hmids : ∀ v ∈ mid, size v = 1 ∨ size v = 2 := fun v hv => hwidths v (by simp [hv])
    obtain ⟨moved, hrun⟩ := run_dup_values rest hcopy hmove htops hmids htop hmid
    exact ⟨moved, _, hrun, (run_dup_written htop hmid).symm⟩
  | swap =>
    rw [hmove] at hdepth huncut
    obtain ⟨a, b, rest, rfl, ha, hb⟩ := exists_swap hwidths hdepth huncut
    obtain rfl : kind = .swap := by cases kind <;> simp [Shuffle.slotMove] at hmove ⊢
    have hslots : written size (b :: a :: rest) = SlotMove.swap.run (written size (a :: b :: rest)) := by
      simp [written_cons, ha, hb, SlotMove.run]
    exact ⟨[a, b], b :: a :: rest, by simp [Shuffle.run, hcopy], hslots⟩

/-- Whatever is cut, a shuffle finds the slots that it needs. -/
theorem shuffle_depth {result : Shuffle.Result V} (hwidths : ∀ v ∈ stack, size v = 1 ∨ size v = 2)
    (h : kind.run size copy stack = some result) : kind.slotMove.depth ≤ (written size stack).length := by
  fun_cases Shuffle.run size copy kind stack
  all_goals first
    -- values are missing
    | (simp_all [Shuffle.run]; done)
    | simp only [List.mem_cons, forall_eq_or_imp] at hwidths
      simp only [Shuffle.slotMove, SlotMove.depth, length_written_cons]
      omega

end Shuffles

/-! ## One step -/

theorem effect_of_slotMove {code : UInt8} {move : SlotMove} (h : SlotMove.ofOpcode? code = some move) :
    (Opcode.effect code = .pop ∧ move = .pop 1) ∨ (Opcode.effect code = .pop2 ∧ move = .pop 2) ∨
      ∃ kind, Opcode.effect code = .shuffle kind ∧ move = kind.slotMove := by
  unfold SlotMove.ofOpcode? at h
  split_ifs at h <;> obtain rfl := Option.some.inj h <;> subst code
  · exact .inl ⟨by decide, rfl⟩
  · exact .inr (.inl ⟨by decide, rfl⟩)
  · exact .inr (.inr ⟨.dup, by decide, rfl⟩)
  · exact .inr (.inr ⟨.dupX1, by decide, rfl⟩)
  · exact .inr (.inr ⟨.dupX2, by decide, rfl⟩)
  · exact .inr (.inr ⟨.dup2, by decide, rfl⟩)
  · exact .inr (.inr ⟨.dup2X1, by decide, rfl⟩)
  · exact .inr (.inr ⟨.dup2X2, by decide, rfl⟩)
  · exact .inr (.inr ⟨.swap, by decide, rfl⟩)

section Step

variable {d : Domain V} {id : NodeId} {insn : Insn} {code : UInt8} {move : SlotMove} {f : Frame V}

theorem stepPop2_eq_error : stepPop2 d f = .error .stackUnderflow ↔
    f.stack = [] ∨ ∃ a, f.stack = [a] ∧ d.size a = 1 := by
  unfold stepPop2
  match f.stack with
  | [] => simp
  | [a] => by_cases ha : d.size a = 1 <;> simp [ha]
  | a :: b :: rest => by_cases ha : d.size a = 1 <;> simp [ha]

theorem step_slots (hcopy : ∀ v, d.copy id insn v = v)
    (hwidths : ∀ v ∈ f.stack, d.size v = 1 ∨ d.size v = 2) (hmove : SlotMove.ofOpcode? code = some move)
    (hdepth : move.depth ≤ (written d.size f.stack).length)
    (huncut : CutsNone move (written d.size f.stack)) :
    ∃ consumed after, step d id insn code f = .ok (consumed, ⟨f.locals, after⟩) ∧
      written d.size after = move.run (written d.size f.stack) ∧
      written d.size consumed.reverse = move.gone (written d.size f.stack) := by
  unfold step
  rcases effect_of_slotMove hmove with ⟨heffect, rfl⟩ | ⟨heffect, rfl⟩ | ⟨kind, heffect, rfl⟩
  · obtain ⟨top, rest, hstack, htop⟩ := exists_pop hdepth huncut
    obtain ⟨a, rfl, ha⟩ := length_written_one (fun v hv => hwidths v (by simp [hstack, hv])) htop
    rw [heffect]
    refine ⟨[a], rest, pop_cons hstack, ?_, ?_⟩
    · rw [hstack, written_append]
      exact (List.drop_left' htop).symm
    · rw [hstack, written_append]
      exact (List.take_left' htop).symm
  · obtain ⟨top, rest, hstack, htop⟩ := exists_pop hdepth huncut
    rw [heffect]
    refine ⟨top.reverse, rest, stepPop2_eq_ok.mpr ?_, ?_, ?_⟩
    · rcases length_written_two (fun v hv => hwidths v (by simp [hstack, hv])) htop with
        ⟨a, b, rfl, ha, hb⟩ | ⟨a, rfl, ha⟩
      · exact .inl ⟨a, b, rest, hstack, ha, rfl⟩
      · exact .inr ⟨a, rest, hstack, by omega, rfl⟩
    · rw [hstack, written_append]
      exact (List.drop_left' htop).symm
    · rw [hstack, written_append, List.reverse_reverse]
      exact (List.take_left' htop).symm
  · obtain ⟨moved, after, hrun, hafter⟩ := shuffle_slots hcopy hwidths hdepth huncut
    rw [heffect]
    refine ⟨[], after, stepShuffle_eq_ok.mpr ⟨moved, after, hrun, rfl⟩, hafter, ?_⟩
    cases kind <;> rfl

theorem step_underflow (hwidths : ∀ v ∈ f.stack, d.size v = 1 ∨ d.size v = 2)
    (hmove : SlotMove.ofOpcode? code = some move) (hshort : (written d.size f.stack).length < move.depth) :
    step d id insn code f = .error .stackUnderflow := by
  unfold step
  rcases effect_of_slotMove hmove with ⟨heffect, rfl⟩ | ⟨heffect, rfl⟩ | ⟨kind, heffect, rfl⟩
  · have hempty : f.stack = [] := length_written_zero hwidths (Nat.lt_one_iff.mp hshort)
    rw [heffect]
    simp [pop, hempty]
  · rw [heffect]
    refine stepPop2_eq_error.mpr ?_
    rcases Nat.le_one_iff_eq_zero_or_eq_one.mp (Nat.le_of_lt_succ hshort) with hlength | hlength
    · exact .inl (length_written_zero hwidths hlength)
    · exact .inr (length_written_one hwidths hlength)
  · rw [heffect]
    simp only [stepShuffle]
    cases hrun : kind.run d.size (d.copy id insn) f.stack with
    | none => rfl
    | some result => exact absurd (shuffle_depth hwidths hrun) (by omega)

theorem execute_of_step [DecidableEq V] {s : Step V} (hcode : insn.opcode? = some code)
    (hstep : step d id insn code f = .ok s) :
    f.execute d id insn = .ok (s.2.replaceAll (d.refine id insn s.1)) := by
  simp only [execute, hcode, hstep]
  rfl

/-- If an instruction that rearranges the stack finds its slots and cuts no value, it does to the slots of the
stack what it says of them; then the domain may replace values for those that are gone. With too few slots
there is nothing to rearrange. -/
theorem execute_slots [DecidableEq V] (hcopy : ∀ v, d.copy id insn v = v)
    (hwidths : ∀ v ∈ f.stack, d.size v = 1 ∨ d.size v = 2) (hcode : insn.opcode? = some code)
    (hmove : SlotMove.ofOpcode? code = some move) :
    (move.depth ≤ (written d.size f.stack).length → CutsNone move (written d.size f.stack) →
      ∃ consumed after, written d.size after = move.run (written d.size f.stack) ∧
        written d.size consumed.reverse = move.gone (written d.size f.stack) ∧
        f.execute d id insn = .ok (replaceAll ⟨f.locals, after⟩ (d.refine id insn consumed)) ∧
        (d.refine id insn consumed = [] → f.execute d id insn = .ok ⟨f.locals, after⟩)) ∧
      ((written d.size f.stack).length < move.depth → f.execute d id insn = .error .stackUnderflow) := by
  refine ⟨fun hdepth huncut => ?_, fun hshort => ?_⟩
  · obtain ⟨consumed, after, hstep, hafter, hgone⟩ := step_slots hcopy hwidths hmove hdepth huncut
    have hexecute := execute_of_step hcode hstep
    refine ⟨consumed, after, hafter, hgone, hexecute, fun hnone => ?_⟩
    rw [hexecute, hnone]
    rfl
  · simp only [execute, hcode, step_underflow hwidths hmove hshort]
    rfl

/-- A long over an int: the slots of the long are put below that of the int as well. One slot is too few. -/
theorem execute_slots_long_over_int :
    (∃ after, written ConstantValue.size after =
        [(.unknown .double, 0), (.unknown .double, 1), (.int 1, 0), (.unknown .double, 0), (.unknown .double, 1)] ∧
      execute ConstantValue.domain ⟨0⟩ (.op Opcode.dup2X1) ⟨#[], [.unknown .double, .int 1]⟩ = .ok ⟨#[], after⟩) ∧
    execute ConstantValue.domain ⟨0⟩ (.op Opcode.dup2X1) ⟨#[], [.int 1]⟩ = .error .stackUnderflow := by
  have hcopy : ∀ v, ConstantValue.domain.copy ⟨0⟩ (.op Opcode.dup2X1) v = v := fun _ => rfl
  have hmove : SlotMove.ofOpcode? Opcode.dup2X1 = some (.dup 2 1) := by decide
  have hwide : ConstantValue.domain.size (.unknown .double) = 2 := rfl
  have hint : ConstantValue.domain.size (.int 1) = 1 := rfl
  have hcut : CutsNone (.dup 2 1) (written ConstantValue.size [.unknown .double, .int 1]) := by
    intro depth hseam v part hv
    rcases (by simpa [SlotMove.seams] using hseam : depth = 2 ∨ depth = 3) with rfl | rfl
    · cases hv
      rfl
    · cases hv
  obtain ⟨hlong, _⟩ := execute_slots (f := ⟨#[], [.unknown .double, .int 1]⟩) hcopy (by simp [hwide, hint]) rfl hmove
  obtain ⟨_, hshort⟩ := execute_slots (f := ⟨#[], [.int 1]⟩) hcopy (by simp [hint]) rfl hmove
  obtain ⟨consumed, after, hafter, _, _, hplain⟩ := hlong (by decide) hcut
  exact ⟨⟨after, hafter, hplain rfl⟩, hshort (by decide)⟩

end Step

/-! ## Domains that only move what is moved -/

theorem cutsNone_of_run {code : UInt8} {move : SlotMove} {stack after : List V}
    (hmove : SlotMove.ofOpcode? code = some move) (hdepth : move.depth ≤ (written size stack).length)
    (hafter : written size after = move.run (written size stack)) : CutsNone move (written size stack) := by
  rcases effect_of_slotMove hmove with ⟨_, rfl⟩ | ⟨_, rfl⟩ | ⟨kind, _, rfl⟩
  · exact cutsNone_pop hafter
  · exact cutsNone_pop hafter
  · cases kind with
    | swap => exact cutsNone_swap hdepth hafter
    | _ => exact cutsNone_dup (by decide) hdepth hafter

theorem written_injective (hsize : ∀ v, 0 < size v) {stack stack' : List V}
    (h : written size stack = written size stack') : stack = stack' := by
  induction stack generalizing stack' with
  | nil =>
    cases stack' with
    | nil => rfl
    | cons w rest' =>
      have hlength := congrArg List.length h
      have hw := hsize w
      simp at hlength
      omega
  | cons v rest ih =>
    cases stack' with
    | nil =>
      have hlength := congrArg List.length h
      have hv := hsize v
      simp at hlength
      omega
    | cons w rest' =>
      have htop := congrArg (·[0]?) h
      simp only [getElem?_written_cons, if_pos (hsize _), Option.some.injEq, Prod.mk.injEq, and_true] at htop
      subst htop
      rw [written_cons, written_cons, List.append_cancel_left_eq] at h
      rw [ih h]

end Frame

/-- A domain that keeps what is moved as it is, and replaces nothing where it is moved. -/
structure Domain.KeepsMoved {V : Type} (d : Domain V) : Prop where
  widths : ∀ v, d.size v = 1 ∨ d.size v = 2
  copy : ∀ id insn v, d.copy id insn v = v
  refine : ∀ id insn code move consumed, insn.opcode? = some code → SlotMove.ofOpcode? code = some move →
    d.refine id insn consumed = []

/-- Such a domain has the stack that the instruction says, if there is one with these slots. -/
theorem Domain.KeepsMoved.execute {V : Type} [DecidableEq V] {d : Domain V} (hd : d.KeepsMoved) {id : NodeId}
    {insn : Insn} {code : UInt8} {move : SlotMove} {f : Frame V} {after : List V}
    (hcode : insn.opcode? = some code) (hmove : SlotMove.ofOpcode? code = some move)
    (hdepth : move.depth ≤ (Frame.written d.size f.stack).length)
    (hafter : Frame.written d.size after = move.run (Frame.written d.size f.stack)) :
    f.execute d id insn = .ok ⟨f.locals, after⟩ := by
  have huncut := Frame.cutsNone_of_run hmove hdepth hafter
  obtain ⟨consumed, after', hstep, hafter', _⟩ :=
    Frame.step_slots (hd.copy id insn) (fun v _ => hd.widths v) hmove hdepth huncut
  have hpositive : ∀ v, 0 < d.size v := fun v => by
    rcases hd.widths v with hv | hv <;> omega
  obtain rfl := Frame.written_injective hpositive (hafter.trans hafter'.symm)
  rw [Frame.execute_of_step hcode hstep, hd.refine id insn code move consumed hcode hmove]
  rfl

theorem ConstantValue.keepsMoved : ConstantValue.domain.KeepsMoved where
  widths v := by
    change ConstantValue.size v = 1 ∨ ConstantValue.size v = 2
    unfold ConstantValue.size
    split
    · rename_i width
      cases width <;> simp [Width.slots]
    · exact .inl rfl
  copy _ _ _ := rfl
  refine id insn code move consumed hcode hmove := by
    change ConstantValue.refine id insn consumed = []
    simp only [ConstantValue.refine, hcode]
    unfold SlotMove.ofOpcode? at hmove
    split_ifs at hmove <;> subst code <;> rfl

theorem VerificationType.keepsMoved (h : Hierarchy) (m : MethodSig) :
    (VerificationType.domain h m).KeepsMoved where
  widths v := by cases v <;> simp [VerificationType.domain, VerificationType.size]
  copy _ _ _ := rfl
  refine id insn code move consumed hcode hmove := by
    change VerificationType.refine m.owner insn consumed = []
    unfold VerificationType.refine
    split
    · rename_i code' index member interface
      obtain rfl : code' = code := Option.some.inj hcode
      refine if_neg fun hinit => ?_
      have hnone : SlotMove.ofOpcode? Opcode.invokespecial = none := by decide
      rw [hinit.1, hnone] at hmove
      cases hmove
    · rfl

end DirectCall
