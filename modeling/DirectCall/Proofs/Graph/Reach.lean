import DirectCall.Graph.Reach
import DirectCall.Sources
import Mathlib.Logic.Relation
import Mathlib.Tactic.SplitIfs

/-!
# What a search marks

`reach` marks exactly the vertices below its bound that edges lead to from the start (`reach_iff`). A search with
a bound on its steps reduces on closed graphs, where `reachFrom` does not.
-/

namespace DirectCall.Graph

/-! ## Marks -/

section Marks

variable {marks : Array Bool} {size v w : Nat}

theorem getD_replicate (size v : Nat) : (Array.replicate size false).getD v false = false := by
  rw [Array.getD_eq_getD_getElem?, Array.getElem?_replicate]
  split_ifs
  · rfl
  · rfl

theorem getD_setIfInBounds (marks : Array Bool) (v w : Nat) :
    (marks.setIfInBounds v true).getD w false = true ↔
      marks.getD w false = true ∨ w = v ∧ v < marks.size := by
  simp only [Array.getD_eq_getD_getElem?, Array.getElem?_setIfInBounds]
  by_cases hvw : v = w
  · subst hvw
    by_cases hv : v < marks.size
    · simp [hv]
    · simp [hv]
  · simp [hvw, Ne.symm hvw]

theorem getD_set_of_lt (hv : v < marks.size) :
    (marks.set v true).getD w false = true ↔ marks.getD w false = true ∨ w = v := by
  have hset : marks.set v true = marks.setIfInBounds v true := by rw [Array.setIfInBounds, dif_pos hv]
  rw [hset, getD_setIfInBounds]
  simp [hv]

theorem getD_mark {vertices : List Nat} :
    (mark size vertices).getD w false = true ↔ w ∈ vertices ∧ w < size := by
  have hfold : ∀ marks : Array Bool,
      (vertices.foldl (fun marks v => marks.setIfInBounds v true) marks).getD w false = true ↔
        marks.getD w false = true ∨ w ∈ vertices ∧ w < marks.size := by
    induction vertices with
    | nil => simp
    | cons v rest ih =>
      intro marks
      rw [List.foldl_cons, ih, getD_setIfInBounds, Array.size_setIfInBounds, List.mem_cons]
      constructor
      · rintro ((h | ⟨rfl, h⟩) | ⟨h, hlt⟩)
        · exact .inl h
        · exact .inr ⟨.inl rfl, h⟩
        · exact .inr ⟨.inr h, hlt⟩
      · rintro (h | ⟨rfl | h, hlt⟩)
        · exact .inl (.inl h)
        · exact .inl (.inr ⟨rfl, hlt⟩)
        · exact .inr ⟨h, hlt⟩
  rw [mark, hfold, Array.size_replicate, getD_replicate]
  simp

theorem mem_members : v ∈ members marks ↔ marks.getD v false = true := by
  rw [members, List.mem_filter, List.mem_range]
  refine ⟨fun h => h.2, fun h => ⟨Nat.lt_of_not_le fun hlarge => ?_, h⟩⟩
  rw [Array.getD_eq_getD_getElem?, Array.getElem?_eq_none hlarge] at h
  cases h

theorem pairwise_members (marks : Array Bool) : (members marks).Pairwise (· < ·) :=
  List.pairwise_lt_range.sublist List.filter_sublist

end Marks

/-! ## Searching -/

/-- An edge to a vertex below `size`. -/
def Leads (next : Nat → List Nat) (size v w : Nat) : Prop := w ∈ next v ∧ w < size

variable {next : Nat → List Nat} {size : Nat}

/-- What holds of the vertices seen and pending, and of what they lead to, holds of all that is marked. -/
theorem reachFrom_induct {P : Nat → Prop} (hnext : ∀ v w, P v → Leads next size v w → P w)
    {seen : Array Bool} {pending : List Nat} (hsize : seen.size = size)
    (hseen : ∀ v, seen.getD v false = true → P v) (hpending : ∀ v ∈ pending, v < size → P v) {v : Nat}
    (h : (reachFrom next seen pending).getD v false = true) : P v := by
  fun_induction reachFrom next seen pending with
  | case1 seen => exact hseen v h
  | case2 seen u pending hu hnew ih =>
    have hP : P u := hpending u List.mem_cons_self (hsize ▸ hu)
    refine ih (by rw [Array.size_set]; exact hsize) (fun w hw => ?_) (fun w hw hlt => ?_) h
    · rcases (getD_set_of_lt hu).mp hw with hw | rfl
      · exact hseen w hw
      · exact hP
    · rcases List.mem_append.mp hw with hw | hw
      · exact hnext u w hP ⟨hw, hlt⟩
      · exact hpending w (List.mem_cons_of_mem _ hw) hlt
  | case3 seen u pending hu hold ih =>
    exact ih hsize hseen (fun w hw => hpending w (List.mem_cons_of_mem _ hw)) h
  | case4 seen u pending hu ih =>
    exact ih hsize hseen (fun w hw => hpending w (List.mem_cons_of_mem _ hw)) h

/-- The vertices that a search marks include those seen and pending, and all they lead to. -/
structure Closed (next : Nat → List Nat) (size : Nat) (seen : Array Bool) (pending : List Nat)
    (marks : Array Bool) : Prop where
  seen : ∀ v, seen.getD v false = true → marks.getD v false = true
  pending : ∀ v ∈ pending, v < size → marks.getD v false = true
  leads : ∀ v w, marks.getD v false = true → Leads next size v w → marks.getD w false = true

theorem reachFrom_closed {seen : Array Bool} {pending : List Nat} (hsize : seen.size = size)
    (hseen : ∀ v w, seen.getD v false = true → Leads next size v w →
      seen.getD w false = true ∨ w ∈ pending) :
    Closed next size seen pending (reachFrom next seen pending) := by
  fun_induction reachFrom next seen pending with
  | case1 seen =>
    refine ⟨fun v hv => hv, fun v hv => absurd hv (by simp), fun v w hv hw => ?_⟩
    exact (hseen v w hv hw).resolve_right (by simp)
  | case2 seen u pending hu hnew ih =>
    have hrest := ih (by rw [Array.size_set]; exact hsize) fun v w hv hw => by
      rw [getD_set_of_lt hu] at hv ⊢
      rw [List.mem_append]
      rcases hv with hv | rfl
      · rcases hseen v w hv hw with h | h
        · exact .inl (.inl h)
        · rcases List.mem_cons.mp h with rfl | h
          · exact .inl (.inr rfl)
          · exact .inr (.inr h)
      · exact .inr (.inl hw.1)
    refine ⟨fun v hv => hrest.seen v ((getD_set_of_lt hu).mpr (.inl hv)), fun v hv hlt => ?_, hrest.leads⟩
    rcases List.mem_cons.mp hv with rfl | hv
    · exact hrest.seen v ((getD_set_of_lt hu).mpr (.inr rfl))
    · exact hrest.pending v (List.mem_append.mpr (.inr hv)) hlt
  | case3 seen u pending hu hold ih =>
    have hu' : seen.getD u false = true := by
      rw [Array.getD_eq_getD_getElem?, Array.getElem?_eq_getElem hu]
      simpa using hold
    have hrest := ih hsize fun v w hv hw => by
      rcases hseen v w hv hw with h | h
      · exact .inl h
      · rcases List.mem_cons.mp h with rfl | h
        · exact .inl hu'
        · exact .inr h
    refine ⟨hrest.seen, fun v hv hlt => ?_, hrest.leads⟩
    rcases List.mem_cons.mp hv with rfl | hv
    · exact hrest.seen v hu'
    · exact hrest.pending v hv hlt
  | case4 seen u pending hu ih =>
    have hrest := ih hsize fun v w hv hw => by
      rcases hseen v w hv hw with h | h
      · exact .inl h
      · rcases List.mem_cons.mp h with rfl | h
        · exact absurd (hsize ▸ hw.2) hu
        · exact .inr h
    refine ⟨hrest.seen, fun v hv hlt => ?_, hrest.leads⟩
    rcases List.mem_cons.mp hv with rfl | hv
    · exact absurd (hsize ▸ hlt) hu
    · exact hrest.pending v hv hlt

/-- Exactly the vertices that edges lead to from the start are marked. -/
theorem reach_iff {start : List Nat} {v : Nat} :
    (reach next size start).getD v false = true ↔
      ∃ s ∈ start, s < size ∧ Relation.ReflTransGen (Leads next size) s v := by
  have hnone : ∀ v, (Array.replicate size false).getD v false ≠ true := by
    intro v
    rw [getD_replicate]
    exact Bool.false_ne_true
  constructor
  · refine reachFrom_induct (P := fun v => ∃ s ∈ start, s < size ∧
      Relation.ReflTransGen (Leads next size) s v) ?_ Array.size_replicate
      (fun v hv => absurd hv (hnone v)) (fun v hv hlt => ⟨v, hv, hlt, .refl⟩)
    rintro v w ⟨s, hs, hlt, hpath⟩ hw
    exact ⟨s, hs, hlt, hpath.tail hw⟩
  · rintro ⟨s, hs, hlt, hpath⟩
    have hclosed : Closed next size _ start (reach next size start) :=
      reachFrom_closed Array.size_replicate fun v w hv => absurd hv (hnone v)
    induction hpath with
    | refl => exact hclosed.pending s hs hlt
    | tail _ hw ih => exact hclosed.leads _ _ ih hw

/-! ## Searching in so many steps -/

/-- `reachFrom`, unless it takes more than `fuel` steps. -/
def reachWithin (next : Nat → List Nat) : Nat → Array Bool → List Nat → Option (Array Bool)
  | _, seen, [] => some seen
  | 0, _, _ :: _ => none
  | fuel + 1, seen, v :: pending =>
    if h : v < seen.size then
      if seen[v] = false then reachWithin next fuel (seen.set v true) (next v ++ pending)
      else reachWithin next fuel seen pending
    else reachWithin next fuel seen pending

theorem reachFrom_of_reachWithin {next : Nat → List Nat} {fuel : Nat} {seen marks : Array Bool}
    {pending : List Nat} (h : reachWithin next fuel seen pending = some marks) :
    reachFrom next seen pending = marks := by
  induction fuel generalizing seen pending with
  | zero =>
    cases pending with
    | nil =>
      rw [reachFrom]
      exact Option.some.inj h
    | cons v rest => simp [reachWithin] at h
  | succ fuel ih =>
    cases pending with
    | nil =>
      rw [reachFrom]
      exact Option.some.inj h
    | cons v rest =>
      rw [reachWithin] at h
      rw [reachFrom]
      split_ifs at h ⊢
      · exact ih h
      · exact ih h
      · exact ih h

end DirectCall.Graph

namespace DirectCall.SourceAnalysis

variable {a : SourceAnalysis} {consumer : Nat}

/-- The evidence that a bounded search finds. -/
theorem evidence_of_reachWithin {slots ids : List Nat} (fuel : Nat)
    (h : (Graph.reachWithin a.feedersAt fuel (Array.replicate a.flow.size false)
      ((slots.filterMap fun slot => (a.consumedAt consumer)[slot]?).flatMap a.feeders)).map
        Graph.members = some ids) : a.evidence consumer slots = ids := by
  obtain ⟨marks, hmarks, rfl⟩ := Option.map_eq_some_iff.mp h
  rw [evidence, Graph.reach, Graph.reachFrom_of_reachWithin hmarks]

/-- The evidence for several lots of slots, all of which is evaluated at once. -/
theorem evidence_map_of_reachWithin {lots ids : List (List Nat)} (fuel : Nat)
    (h : lots.map (fun slots => (Graph.reachWithin a.feedersAt fuel (Array.replicate a.flow.size false)
      ((slots.filterMap fun slot => (a.consumedAt consumer)[slot]?).flatMap a.feeders)).map
        Graph.members) = ids.map some) : lots.map (a.evidence consumer) = ids := by
  induction lots generalizing ids with
  | nil => exact (List.map_eq_nil_iff.mp h.symm).symm
  | cons slots rest ih =>
    cases ids with
    | nil => cases h
    | cons first others =>
      obtain ⟨hfirst, hrest⟩ := List.cons.inj h
      rw [List.map_cons, evidence_of_reachWithin fuel hfirst, ih hrest]

end DirectCall.SourceAnalysis
