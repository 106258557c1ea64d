import DirectCall.Code.Layout
import DirectCall.Proofs.Result
import Mathlib.Tactic.SplitIfs

/-!
# Where a layout settles

Offsets add up the sizes of the instructions ahead (`Layout.offsets_succ`). Every round of widening makes
one more jump long, so the rounds are enough to come to an end, where all other jumps reach their targets
(`Layout.settle_settled`).
-/

namespace DirectCall

theorem countP_lt {α : Type} {p q : α → Bool} {xs : List α} (hle : ∀ x ∈ xs, p x = true → q x = true)
    {a : α} (ha : a ∈ xs) (hp : p a = false) (hq : q a = true) : xs.countP p < xs.countP q := by
  obtain ⟨front, back, rfl⟩ := List.append_of_mem ha
  have hfront := List.countP_mono_left fun x (hx : x ∈ front) => hle x (by simp [hx])
  have hback := List.countP_mono_left fun x (hx : x ∈ back) => hle x (by simp [hx])
  rw [List.countP_append, List.countP_append, List.countP_cons, List.countP_cons, hp, hq]
  simp only [Bool.false_eq_true, if_false, if_true]
  omega

namespace Layout

variable {l : Layout} {long : LongJumps}

/-! ## Offsets -/

/-- The size of the instruction at a position, at an offset. -/
def sizeAt (l : Layout) (long : LongJumps) (offset position : Nat) : Nat :=
  (l.list.insnAt position).codeSize offset (l.indices.getD position 0) (long.getD position false)

theorem offsetsFrom_succ (count position offset : Nat) (done : Array Nat) :
    l.offsetsFrom long (count + 1) position offset done = l.offsetsFrom long count (position + 1)
      (offset + l.sizeAt long offset position) (done.push offset) :=
  rfl

theorem offsetsFrom_spec (count : Nat) {position offset : Nat} {done : Array Nat}
    (hdone : done.size = position) :
    (∀ i < position, (l.offsetsFrom long count position offset done).getD i 0 = done.getD i 0) ∧
    (l.offsetsFrom long count position offset done).getD position 0 = offset ∧
    ∀ p, position ≤ p → p < position + count →
      (l.offsetsFrom long count position offset done).getD (p + 1) 0 =
        (l.offsetsFrom long count position offset done).getD p 0 +
          l.sizeAt long ((l.offsetsFrom long count position offset done).getD p 0) p := by
  have hpush : ∀ i < position, (done.push offset).getD i 0 = done.getD i 0 := by
    intro i hi
    simp only [Array.getD_eq_getD_getElem?]
    rw [Array.getElem?_push_lt (by omega), Array.getElem?_eq_getElem (by omega)]
  have hlast : (done.push offset).getD position 0 = offset := by
    simp only [Array.getD_eq_getD_getElem?]
    rw [← hdone, Array.getElem?_push_size, Option.getD_some]
  induction count generalizing position offset done with
  | zero => exact ⟨hpush, hlast, fun p hle hlt => absurd hlt (by omega)⟩
  | succ count ih =>
    rw [offsetsFrom_succ]
    have hsize : (done.push offset).size = position + 1 := by rw [Array.size_push, hdone]
    obtain ⟨hkept, hnext, hsteps⟩ := @ih (position + 1) (offset + l.sizeAt long offset position) _ hsize
      (by
        intro i hi
        simp only [Array.getD_eq_getD_getElem?]
        rw [Array.getElem?_push_lt (by omega), Array.getElem?_eq_getElem (by omega)])
      (by
        simp only [Array.getD_eq_getD_getElem?]
        rw [← hsize, Array.getElem?_push_size, Option.getD_some])
    have hfirst := (hkept position (Nat.lt_succ_self _)).trans hlast
    refine ⟨fun i hi => (hkept i (Nat.lt_succ_of_lt hi)).trans (hpush i hi), hfirst, ?_⟩
    intro p hle hlt
    rcases Nat.eq_or_lt_of_le hle with rfl | hlt'
    · rw [hfirst]
      exact hnext
    · exact hsteps p hlt' (by omega)

@[simp] theorem offsets_zero : (l.offsets long).getD 0 0 = 0 :=
  (@offsetsFrom_spec l long l.size 0 0 #[] rfl).2.1

/-- An instruction ends where the next one starts. -/
theorem offsets_succ (long : LongJumps) {p : Nat} (hp : p < l.size) :
    (l.offsets long).getD (p + 1) 0 =
      (l.offsets long).getD p 0 + l.sizeAt long ((l.offsets long).getD p 0) p :=
  (@offsetsFrom_spec l long l.size 0 0 #[] rfl).2.2 p (Nat.zero_le p) (by omega)

theorem offsets_le (long : LongJumps) {p q : Nat} (hle : p ≤ q) (hq : q ≤ l.size) :
    (l.offsets long).getD p 0 ≤ (l.offsets long).getD q 0 := by
  induction hle with
  | refl => exact Nat.le_refl _
  | @step q _ ih =>
    rw [offsets_succ long hq]
    exact Nat.le_trans (ih (Nat.le_of_succ_le hq)) (Nat.le_add_right _ _)

/-! ## Widening -/

/-- A layout in which the long jumps can be long and all others reach their targets. -/
structure Settled (l : Layout) (long : LongJumps) (offsets : Array Nat) : Prop where
  offsets_eq : offsets = l.offsets long
  small : offsets.getD l.size 0 ≤ 65535
  mayGrow : ∀ p, long.getD p false = true → mayGrow (l.list.insnAt p) = true
  stays : ∀ p < l.size, l.mustGrow long offsets p = .ok false

/-- Settled offsets fit two bytes. -/
theorem Settled.le {offsets : Array Nat} (h : l.Settled long offsets) {p : Nat} (hp : p ≤ l.size) :
    offsets.getD p 0 ≤ 65535 := by
  have hle := offsets_le long hp (Nat.le_refl l.size)
  have hsmall := h.small
  rw [h.offsets_eq] at hsmall ⊢
  exact Nat.le_trans hle hsmall

/-- The jump at a position may still become long. -/
def canGrow (l : Layout) (long : LongJumps) (position : Nat) : Bool :=
  mayGrow (l.list.insnAt position) && !long.getD position false

/-- Number of jumps that may still become long. -/
def remaining (l : Layout) (long : LongJumps) : Nat := (List.range l.size).countP (l.canGrow long)

theorem canGrow_of_mustGrow {offsets : Array Nat} {p : Nat}
    (h : l.mustGrow long offsets p = .ok true) : l.canGrow long p = true := by
  unfold mustGrow at h
  rw [canGrow]
  split at h
  · rename_i code target hinsn
    dsimp only at h
    split_ifs at h with hlong hcode
    · cases h
    · rw [hinsn, Layout.mayGrow]
      simpa [hlong] using hcode
    · obtain ⟨d, _, h⟩ := bind_eq_ok.mp h
      split_ifs at h
      cases h
  · cases h

/-- Jumps that were made long, besides those that were long. -/
theorem getD_widen {grown : List Nat} (hgrown : ∀ p ∈ grown, p < long.size) (q : Nat) :
    (grown.foldl (fun long p => long.setIfInBounds p true) long).size = long.size ∧
      ((grown.foldl (fun long p => long.setIfInBounds p true) long).getD q false = true ↔
        long.getD q false = true ∨ q ∈ grown) := by
  induction grown generalizing long with
  | nil => simp
  | cons p grown ih =>
    obtain ⟨hsize, hiff⟩ := @ih (long.setIfInBounds p true) (fun p' hp' => by
      rw [Array.size_setIfInBounds]
      exact hgrown p' (List.mem_cons_of_mem _ hp'))
    rw [List.foldl_cons, hiff, hsize, Array.size_setIfInBounds]
    refine ⟨rfl, ?_⟩
    have hp := hgrown p List.mem_cons_self
    simp only [Array.getD_eq_getD_getElem?, Array.getElem?_setIfInBounds, List.mem_cons]
    by_cases heq : p = q
    · subst heq
      simp [hp]
    · have hne : q ≠ p := fun h => heq h.symm
      simp [heq, hne]

/-- A round that widens leaves fewer jumps to widen. -/
theorem remaining_lt {grown : List Nat} (hne : grown ≠ []) (hsize : long.size = l.size)
    (hgrown : ∀ p ∈ grown, p < l.size ∧ l.canGrow long p = true) :
    l.remaining (grown.foldl (fun long p => long.setIfInBounds p true) long) < l.remaining long := by
  have hinside : ∀ p ∈ grown, p < long.size := fun p hp => hsize ▸ (hgrown p hp).1
  obtain ⟨first, hfirst⟩ := List.exists_mem_of_ne_nil grown hne
  obtain ⟨hlt, hcan⟩ := hgrown first hfirst
  refine countP_lt (fun p _ hp => ?_) (List.mem_range.mpr hlt) ?_ hcan
  · rw [canGrow, Bool.and_eq_true, Bool.not_eq_true'] at hp ⊢
    refine ⟨hp.1, Bool.eq_false_iff.mpr fun hlong => ?_⟩
    rw [((getD_widen hinside p).2).mpr (.inl hlong)] at hp
    exact Bool.noConfusion hp.2
  · rw [canGrow, ((getD_widen hinside first).2).mpr (.inr hfirst)]
    simp

theorem settleFrom_settled {rounds : Nat} {long' : LongJumps} {offsets : Array Nat}
    (h : l.settleFrom rounds long = .ok (long', offsets)) (hsize : long.size = l.size)
    (hgrow : ∀ p, long.getD p false = true → mayGrow (l.list.insnAt p) = true)
    (hrounds : l.remaining long < rounds) : l.Settled long' offsets := by
  induction rounds generalizing long with
  | zero => exact absurd hrounds (Nat.not_lt_zero _)
  | succ rounds ih =>
    rw [settleFrom] at h
    dsimp only at h
    split_ifs at h with hlong
    · cases h
    · obtain ⟨grown, hgrown, h⟩ := bind_eq_ok.mp h
      obtain ⟨hasked, _⟩ := filterM_eq_ok.mp hgrown
      split_ifs at h with hempty
      · cases h
        rw [List.isEmpty_iff] at hempty
        subst hempty
        refine ⟨rfl, Nat.le_of_not_lt hlong, hgrow, fun p hp => ?_⟩
        obtain ⟨b, hb⟩ := hasked p (List.mem_range.mpr hp)
        cases b with
        | false => exact hb
        | true => exact absurd ((mem_filterM_ok hgrown).mpr ⟨List.mem_range.mpr hp, hb⟩) List.not_mem_nil
      · rw [List.isEmpty_iff] at hempty
        have hcan : ∀ p ∈ grown, p < l.size ∧ l.canGrow long p = true := by
          intro p hp
          obtain ⟨hinside, hmust⟩ := (mem_filterM_ok hgrown).mp hp
          exact ⟨List.mem_range.mp hinside, canGrow_of_mustGrow hmust⟩
        have hinside : ∀ p ∈ grown, p < long.size := fun p hp => hsize ▸ (hcan p hp).1
        refine ih h ((getD_widen hinside 0).1.trans hsize) (fun p hp => ?_) ?_
        · rcases ((getD_widen hinside p).2).mp hp with hp | hp
          · exact hgrow p hp
          · have hboth := (hcan p hp).2
            rw [canGrow, Bool.and_eq_true] at hboth
            exact hboth.1
        · have hlt := remaining_lt hempty hsize hcan
          omega

/-- All jumps are short. -/
def noneLong (l : Layout) : LongJumps := Array.replicate l.size false

@[simp] theorem getD_noneLong (l : Layout) (p : Nat) : l.noneLong.getD p false = false := by
  rw [noneLong, Array.getD_eq_getD_getElem?, Array.getElem?_replicate]
  split_ifs <;> rfl

theorem remaining_noneLong : l.remaining l.noneLong ≤ l.growableCount := by
  have hinsns : l.list.insns.toList = (List.range l.size).map l.list.insnAt := by
    refine List.ext_getElem (by simp [InsnList.insns, size, InsnList.size]) fun p hp hp' => ?_
    have hposition : p < l.list.order.size := by simpa [InsnList.insns] using hp
    simp [InsnList.insns, InsnList.insnAt, InsnList.idAt, hposition]
  rw [remaining, growableCount, ← Array.length_toList, Array.toList_filter, hinsns,
    ← List.countP_eq_length_filter, List.countP_map]
  refine List.countP_mono_left fun p _ hp => ?_
  rw [canGrow, Bool.and_eq_true] at hp
  exact hp.1

/-- The layout that is found is settled. -/
theorem settle_settled {offsets : Array Nat} (h : l.settle = .ok (long, offsets)) :
    l.Settled long offsets := by
  refine settleFrom_settled h (by simp) (fun p hp => ?_) (Nat.lt_succ_of_le remaining_noneLong)
  rw [← noneLong, getD_noneLong] at hp
  cases hp

/-- A layout whose short jumps all reach their targets is settled at once. -/
theorem settle_of_reaching (hsmall : (l.offsets l.noneLong).getD l.size 0 ≤ 65535)
    (hstays : ∀ p < l.size, l.mustGrow l.noneLong (l.offsets l.noneLong) p = .ok false) :
    l.settle = .ok (l.noneLong, l.offsets l.noneLong) := by
  unfold settle settleFrom
  dsimp only
  rw [← noneLong, if_neg (Nat.not_lt.mpr hsmall)]
  have hnone : (List.range l.size).filterM (l.mustGrow l.noneLong (l.offsets l.noneLong)) =
      .ok [] := by
    refine filterM_eq_ok.mpr ⟨fun p hp => ⟨false, hstays p (List.mem_range.mp hp)⟩, ?_⟩
    rw [eq_comm, List.filter_eq_nil_iff]
    intro p hp
    simp [hstays p (List.mem_range.mp hp), Except.toOption]
  exact bind_eq_ok.mpr ⟨[], hnone, rfl⟩

end Layout

end DirectCall
