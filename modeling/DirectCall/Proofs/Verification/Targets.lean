import DirectCall.Proofs.Flow.Survive
import DirectCall.Proofs.Frame.Ends
import DirectCall.Proofs.InsnList.Number
import DirectCall.Verification.StackMap

/-!
# Where frames stand

A stack map has a frame for the first instruction at or after every jump target and every handler, and
for no other (`StackMap.Computes`). In a clean body no such instruction is out of reach
(`compute_ne_unreachableTarget`), and an instruction behind one that ends the flow is among them
(`StackMap.Computes.exists_marks`).
-/

namespace DirectCall

namespace InsnList

/-- The first instruction from a position on. -/
structure IsNext (list : InsnList) (start p : Nat) : Prop where
  le : start ≤ p
  lt : p < list.size
  isReal : (list.insnAt p).isReal = true
  skips : ∀ q, start ≤ q → q < p → (list.insnAt q).isReal = false

/-- A node marks the first instruction at or after it. -/
def Marks (list : InsnList) (id : NodeId) (p : Nat) : Prop :=
  ∃ start, list.positions.find? id = some start ∧ list.IsNext start p

end InsnList

namespace StackMap

variable {list : InsnList} {all : Frame.Frames VerificationType} {target : NodeId} {p : Nat}

theorem nextReal?_eq_some {count start : Nat} :
    nextReal? list count start = some p ↔ start ≤ p ∧ p < start + count ∧ (list.insnAt p).isReal = true ∧
      ∀ q, start ≤ q → q < p → (list.insnAt q).isReal = false := by
  induction count generalizing start with
  | zero =>
    rw [nextReal?]
    exact ⟨nofun, fun ⟨_, _, _⟩ => by omega⟩
  | succ count ih =>
    rw [nextReal?]
    cases hreal : (list.insnAt start).isReal with
    | true =>
      rw [if_pos rfl, Option.some.injEq]
      constructor
      · rintro rfl
        exact ⟨Nat.le_refl _, by omega, hreal, fun q _ _ => by omega⟩
      · rintro ⟨hle, _, _, hskips⟩
        by_contra hne
        have hskipped := hskips start (Nat.le_refl _) (by omega)
        rw [hreal] at hskipped
        cases hskipped
    | false =>
      rw [if_neg Bool.false_ne_true, ih]
      constructor
      · rintro ⟨hle, hlt, hp, hskips⟩
        refine ⟨by omega, by omega, hp, fun q hq hqp => ?_⟩
        by_cases heq : q = start
        · exact heq ▸ hreal
        · exact hskips q (by omega) hqp
      · rintro ⟨hle, hlt, hp, hskips⟩
        have hne : start ≠ p := by
          rintro rfl
          rw [hreal] at hp
          cases hp
        exact ⟨by omega, by omega, hp, fun q hq => hskips q (by omega)⟩

theorem nextReal?_eq_some_iff {start : Nat} :
    nextReal? list (list.size - start) start = some p ↔ list.IsNext start p := by
  rw [nextReal?_eq_some]
  exact ⟨fun ⟨hle, _, hreal, hskips⟩ => ⟨hle, by omega, hreal, hskips⟩,
    fun ⟨hle, hlt, hreal, hskips⟩ => ⟨hle, by omega, hreal, hskips⟩⟩

/-- A target that has a place is answered by the instruction it marks. -/
theorem framePosition_eq {start : Nat} (hstart : list.positions.find? target = some start) :
    framePosition list list.positions all target =
      match nextReal? list (list.size - start) start with
      | none => .ok none
      | some q => if (all.getD q none).isSome then .ok (some q) else .error (.unreachableTarget q) := by
  unfold framePosition
  generalize list.positions.find? target = found at hstart ⊢
  subst hstart
  rfl

theorem framePosition_eq_some :
    framePosition list list.positions all target = .ok (some p) ↔
      list.Marks target p ∧ (all.getD p none).isSome = true := by
  constructor
  · intro h
    unfold framePosition at h
    split at h
    · cases h
    · rename_i start hstart
      split at h
      · cases h
      · rename_i q hq
        split_ifs at h with hsome
        obtain rfl := Option.some.inj (Except.ok.inj h)
        exact ⟨⟨start, hstart, nextReal?_eq_some_iff.mp hq⟩, hsome⟩
  · rintro ⟨⟨start, hstart, hnext⟩, hsome⟩
    rw [framePosition_eq hstart, nextReal?_eq_some_iff.mpr hnext]
    exact if_pos hsome

/-- An instruction that a target marks is passed over by no success. -/
theorem isSome_of_framePosition {answer : Option Nat} (hmarks : list.Marks target p)
    (h : framePosition list list.positions all target = .ok answer) : (all.getD p none).isSome = true := by
  obtain ⟨start, hstart, hnext⟩ := hmarks
  rw [framePosition_eq hstart, nextReal?_eq_some_iff.mpr hnext] at h
  dsimp only at h
  split_ifs at h with hsome
  exact hsome

theorem framePosition_eq_unreachable
    (h : framePosition list list.positions all target = .error (.unreachableTarget p)) :
    list.Marks target p ∧ (all.getD p none).isSome = false := by
  unfold framePosition at h
  split at h
  · cases h
  · rename_i start hstart
    split at h
    · cases h
    · rename_i q hq
      split_ifs at h with hnone
      obtain rfl := Fault.unreachableTarget.inj (Except.error.inj h)
      exact ⟨⟨start, hstart, nextReal?_eq_some_iff.mp hq⟩, Bool.eq_false_of_not_eq_true hnone⟩

theorem mem_framesAt {positions : List Nat} {f : Frame VerificationType} :
    (p, f) ∈ framesAt all positions ↔ p ∈ positions ∧ all.getD p none = some f := by
  simp only [framesAt, List.mem_filterMap, Graph.mem_members, Graph.getD_mark, Option.map_eq_some_iff,
    Prod.mk.injEq]
  constructor
  · rintro ⟨q, ⟨hq, _⟩, g, hg, rfl, rfl⟩
    exact ⟨hq, hg⟩
  · rintro ⟨hp, hf⟩
    exact ⟨p, ⟨hp, Frame.Progress.lt_of_getD hf⟩, f, hf, rfl, rfl⟩

theorem pairwise_framesAt (all : Frame.Frames VerificationType) (positions : List Nat) :
    (framesAt all positions).Pairwise (·.1 < ·.1) := by
  refine List.Pairwise.filterMap _ (fun p q hpq entry hentry entry' hentry' => ?_)
    (Graph.pairwise_members _)
  obtain ⟨f, _, rfl⟩ := Option.map_eq_some_iff.mp hentry
  obtain ⟨g, _, rfl⟩ := Option.map_eq_some_iff.mp hentry'
  exact hpq

/-! ## What is computed -/

/-- The stack map of a body: the limits, and the frames of an analysis at the instructions that the
targets mark, by increasing position. -/
structure Computes (h : Hierarchy) (m : MethodSig) (body : Body) (map : StackMap)
    (all : Frame.Frames VerificationType) : Prop where
  required : requiredLocals m body = .ok map.maxLocals
  analysed : Frame.analyze (VerificationType.domain h m) m { body with maxLocals := map.maxLocals } = .ok all
  increasing : map.frames.Pairwise (·.1 < ·.1)
  mem_frames : ∀ p f, (p, f) ∈ map.frames ↔
    (∃ target ∈ frameTargets body, body.insns.Marks target p) ∧ all.getD p none = some f
  framed : ∀ target ∈ frameTargets body, ∀ p, body.insns.Marks target p → ∃ f, all.getD p none = some f

theorem compute_spec {h : Hierarchy} {m : MethodSig} {body : Body} {map : StackMap}
    (hmap : compute h m body = .ok map) : ∃ all, Computes h m body map all := by
  obtain ⟨maxLocals, hrequired, hmap⟩ := bind_eq_ok.mp hmap
  obtain ⟨all, hall, hmap⟩ := bind_eq_ok.mp hmap
  obtain ⟨needed, hneeded, hmap⟩ := bind_eq_ok.mp hmap
  split_ifs at hmap
  obtain rfl := Except.ok.inj hmap
  have hframed : ∀ target ∈ frameTargets body, ∀ p, body.insns.Marks target p →
      ∃ f, all.getD p none = some f := by
    intro target htarget p hmarks
    obtain ⟨answer, _, hanswer⟩ := exists_of_forall₂ (mapM_eq_ok.mp hneeded) htarget
    exact Option.isSome_iff_exists.mp (isSome_of_framePosition hmarks hanswer)
  have hmem : ∀ p, p ∈ needed.filterMap id ↔ ∃ target ∈ frameTargets body, body.insns.Marks target p := by
    intro p
    simp only [List.mem_filterMap, id, exists_eq_right]
    constructor
    · intro hp
      obtain ⟨target, htarget, hp⟩ := mem_mapM_ok hneeded hp
      exact ⟨target, htarget, (framePosition_eq_some.mp hp).1⟩
    · rintro ⟨target, htarget, hmarks⟩
      obtain ⟨answer, hmem, hanswer⟩ := exists_of_forall₂ (mapM_eq_ok.mp hneeded) htarget
      have hsome := Option.isSome_iff_exists.mpr (hframed target htarget p hmarks)
      obtain rfl := Except.ok.inj (hanswer.symm.trans (framePosition_eq_some.mpr ⟨hmarks, hsome⟩))
      exact hmem
  exact ⟨all, hrequired, hall, pairwise_framesAt _ _, fun p f => by rw [mem_framesAt, hmem], hframed⟩

variable {h : Hierarchy} {m : MethodSig} {body : Body}

/-- An analysis of a clean body reaches every instruction, whatever the limits of the body. -/
theorem reaches_of_isNext (hclean : body.Clean) {d : Domain VerificationType} {maxLocals : UInt16}
    (hall : Frame.analyze d m { body with maxLocals := maxLocals } = .ok all) {f : Flow}
    (hflow : Flow.ofBody { body with maxLocals := maxLocals } = .ok f) {start : Nat}
    (hnext : body.insns.IsNext start p) : f.Reaches p := by
  have hclean' : Body.Clean { body with maxLocals := maxLocals } := ⟨hclean.covering, hclean.live⟩
  have hlist := Flow.list_of_ofBody hflow
  refine hclean'.reaches hall hflow ?_ ?_
  · rw [Flow.size, hlist]
    exact hnext.lt
  · rw [Flow.insnAt, hlist]
    exact hnext.isReal

/-- The frames of the stack map stand at the instructions that targets mark. -/
theorem Computes.mem_positions {map : StackMap} (hmap : Computes h m body map all) :
    p ∈ map.frames.map (·.1) ↔ ∃ target ∈ frameTargets body, body.insns.Marks target p := by
  constructor
  · intro hp
    obtain ⟨⟨q, f⟩, hentry, rfl⟩ := List.mem_map.mp hp
    exact ((hmap.mem_frames q f).mp hentry).1
  · rintro ⟨target, htarget, hmarks⟩
    obtain ⟨f, hf⟩ := hmap.framed target htarget p hmarks
    exact List.mem_map.mpr ⟨(p, f), (hmap.mem_frames p f).mpr ⟨⟨target, htarget, hmarks⟩, hf⟩, rfl⟩

theorem requiredLocals_ne_unreachableTarget : requiredLocals m body ≠ .error (.unreachableTarget p) := by
  intro hfault
  unfold requiredLocals at hfault
  split at hfault
  · cases hfault
  · dsimp only at hfault
    split_ifs at hfault
    cases hfault

/-- In a clean body no target is out of reach. -/
theorem compute_ne_unreachableTarget (hclean : body.Clean) :
    compute h m body ≠ .error (.unreachableTarget p) := by
  intro hfault
  rcases bind_eq_error.mp hfault with hrequired | ⟨maxLocals, _, hfault⟩
  · exact requiredLocals_ne_unreachableTarget hrequired
  · rcases bind_eq_error.mp hfault with hall | ⟨all, hall, hfault⟩
    · rcases Frame.analyze_refuses hall with hunsettled | hrefusal
      · cases hunsettled
      · cases hrefusal
    · rcases bind_eq_error.mp hfault with hneeded | ⟨needed, _, hfault⟩
      · obtain ⟨target, _, htarget⟩ := mapM_eq_error hneeded
        obtain ⟨⟨start, _, hnext⟩, hnone⟩ := framePosition_eq_unreachable htarget
        obtain ⟨f, hflow, _⟩ := bind_eq_ok.mp hall
        have hreaches := reaches_of_isNext hclean hall hflow hnext
        rw [(Frame.isSome_iff_reaches hall hflow p).mpr hreaches] at hnone
        cases hnone
      · split_ifs at hfault
        · cases hfault
        · cases hfault

end StackMap

/-! ## Behind the end of a flow -/

/-- Control gets behind an instruction that ends the flow through a target only. -/
theorem Flow.exists_target_of_reaches {body : Body} {f : Flow} (hflow : Flow.ofBody body = .ok f)
    (hsize : 0 < f.size) {p q : Nat} (hends : (f.insnAt p).endsFlow = true) (hq : f.Reaches q) (hpq : p < q) :
    ∃ target ∈ StackMap.frameTargets body, ∃ start, body.insns.positions.find? target = some start ∧
      p < start ∧ start ≤ q := by
  refine hq.induct (P := fun q => p < q → ∃ target ∈ StackMap.frameTargets body, ∃ start,
    body.insns.positions.find? target = some start ∧ p < start ∧ start ≤ q)
    (fun hp => absurd hp (Nat.not_lt_zero p)) (fun s move hs ih hmove hlt => ?_) hpq
  cases move with
  | raise edge =>
    obtain ⟨r, hr, _, _, handler, _, _, hhandler, _, _, rfl⟩ := (mem_handlersAt_iff hflow).mp hmove.2
    exact ⟨r.handler, List.mem_append_right _ (List.mem_map_of_mem hr), handler,
      Positions.find_eq_ok.mp hhandler, hlt, Nat.le_refl _⟩
  | next t =>
    obtain ⟨targets, htargets, ht⟩ := hmove
    rcases (mem_successors_iff htargets).mp ht with ⟨jumps, hjumps, ht⟩ | ⟨hgoes, _, rfl⟩
    · obtain ⟨id, hid, hfind⟩ := mem_mapM_ok hjumps ht
      have hinside := hs.lt hflow hsize
      have hmem : f.insnAt s ∈ body.insns.insns.toList := by
        rw [Flow.size, list_of_ofBody hflow] at hinside
        rw [Flow.insnAt, list_of_ofBody hflow, InsnList.insns_eq_map]
        exact List.mem_map_of_mem (List.mem_range.mpr hinside)
      rw [positions_of_ofBody hflow, list_of_ofBody hflow] at hfind
      exact ⟨id, List.mem_append_left _ (List.mem_flatMap.mpr ⟨_, hmem, hid⟩), t,
        Positions.find_eq_ok.mp hfind, hlt, Nat.le_refl _⟩
    · -- Not from the instruction itself, which ends the flow.
      have hne : p ≠ s := by
        rintro rfl
        rw [hends] at hgoes
        cases hgoes
      obtain ⟨target, htarget, start, hstart, hbehind, hle⟩ :=
        ih (Nat.lt_of_le_of_ne (Nat.le_of_lt_succ hlt) hne)
      exact ⟨target, htarget, start, hstart, hbehind, Nat.le_succ_of_le hle⟩

/-- In a clean body a target marks the instruction behind one that ends the flow. -/
theorem StackMap.Computes.exists_marks {h : Hierarchy} {m : MethodSig} {body : Body} {map : StackMap}
    {all : Frame.Frames VerificationType} (hmap : Computes h m body map all) (hclean : body.Clean) {p q : Nat}
    (hends : (body.insns.insnAt p).endsFlow = true) (hnext : body.insns.IsNext (p + 1) q) :
    ∃ target ∈ frameTargets body, body.insns.Marks target q := by
  obtain ⟨f, hflow, _⟩ := bind_eq_ok.mp hmap.analysed
  have hlist := Flow.list_of_ofBody hflow
  have hsize : 0 < f.size := by
    rw [Flow.size, hlist]
    exact Nat.zero_lt_of_lt hnext.lt
  obtain ⟨target, htarget, start, hstart, hlt, hle⟩ :=
    Flow.exists_target_of_reaches hflow hsize (by rw [Flow.insnAt, hlist]; exact hends)
      (reaches_of_isNext hclean hmap.analysed hflow hnext) hnext.le
  exact ⟨target, htarget, start, hstart, hle, hnext.lt, hnext.isReal,
    fun r hr => hnext.skips r (Nat.le_trans hlt hr)⟩

end DirectCall
