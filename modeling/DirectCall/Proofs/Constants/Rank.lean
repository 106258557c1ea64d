import DirectCall.Constants.Domain
import DirectCall.Proofs.Frame.Ends
import DirectCall.Proofs.Frame.Arrive

/-!
# How often a constant changes

Two different values are never both wide, so a join keeps a value or makes it a single unknown one
(`join_eq`), which no further join changes. Hence the analysis ends (`ConstantValue.ends`), with a fixpoint
(`ConstantValue.stable`).
-/

namespace DirectCall.ConstantValue

/-- The only wide value is an unknown one. -/
theorem eq_unknown_of_size {v : ConstantValue} (h : v.size = 2) : v = unknown .double := by
  cases v with
  | unknown width =>
    cases width with
    | single => cases h
    | double => rfl
  | _ => cases h

theorem join_eq (x y : ConstantValue) : join x y = if x = y then x else unknown .single := by
  unfold join
  split_ifs with heq hwide
  · rfl
  · exact absurd ((eq_unknown_of_size hwide.1).trans (eq_unknown_of_size hwide.2).symm) heq
  · rfl

/-- A join changes nothing if the values are equal already or nothing is known. -/
theorem join_eq_left {x y : ConstantValue} : join x y = x ↔ x = y ∨ x = unknown .single := by
  rw [join_eq]
  split_ifs with heq
  · exact ⟨fun _ => .inl heq, fun _ => rfl⟩
  · exact ⟨fun h => .inr h.symm, fun h => (h.resolve_left heq).symm⟩

/-- Single unknown values rank last; no join changes them. -/
def rank : ConstantValue → Nat
  | .unknown .single => 0
  | _ => 1

theorem rank_le_one (v : ConstantValue) : rank v ≤ 1 := by
  unfold rank
  split
  · exact Nat.zero_le 1
  · exact Nat.le_refl 1

theorem rank_pos {v : ConstantValue} (h : v ≠ unknown .single) : 0 < rank v := by
  unfold rank
  split
  · exact absurd rfl h
  · exact Nat.zero_lt_one

theorem ranked : domain.Ranked rank where
  bounded v _ := (rank_le_one v).trans (Nat.le_succ 1)
  falls v w hne := by
    change join v w ≠ v at hne
    show rank (join v w) < rank v
    rw [Ne, join_eq_left, not_or] at hne
    rw [join_eq, if_neg hne.1]
    exact rank_pos hne.2

theorem ends (m : MethodSig) (body : Body) : Frame.Ends domain m body :=
  Frame.ends_of_ranked (ranked.on _) (fun entry _ => Frame.all_true entry)
    fun flow _ => Frame.keepsAll_true domain flow

theorem join_comm (x y : ConstantValue) : join x y = join y x := by
  rw [join_eq, join_eq]
  by_cases heq : x = y
  · rw [if_pos heq, if_pos heq.symm, heq]
  · rw [if_neg heq, if_neg (Ne.symm heq)]

theorem join_unknown (x : ConstantValue) : join (unknown .single) x = unknown .single :=
  join_eq_left.mpr (.inr rfl)

/-- Values that differ join to the unknown one, whatever comes next. -/
theorem semilattice : domain.Semilattice where
  idem v := join_eq_left.mpr (.inl rfl)
  comm := join_comm
  assoc u v w := by
    show join (join u v) w = join u (join v w)
    rw [join_eq u v, join_eq v w]
    by_cases huv : u = v
    · rw [if_pos huv]
      by_cases hvw : v = w
      · rw [if_pos hvw, huv, hvw]
      · rw [if_neg hvw, join_eq, if_neg (huv ▸ hvw), join_comm u, join_unknown]
    · rw [if_neg huv, join_unknown]
      split_ifs
      · rw [join_eq, if_neg huv]
      · rw [join_comm, join_unknown]

/-- The constants at each position do not change any more. -/
theorem stable {m : MethodSig} {body : Body} {frames : Frame.Frames ConstantValue}
    (h : constantFrames m body = .ok frames) :
    ∃ flow entry, Flow.ofBody body = .ok flow ∧ Frame.entry domain m body.maxLocals = .ok entry ∧
      Frame.Stable domain flow entry frames :=
  Frame.analyze_stable semilattice.absorptive (fun entry _ => Frame.all_true entry)
    (fun flow _ => Frame.keepsAll_true domain flow) h

end DirectCall.ConstantValue
