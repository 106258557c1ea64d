import DirectCall.Flow.Prune
import DirectCall.Proofs.Flow.Blocks
import DirectCall.Proofs.Graph.Reach
import DirectCall.Proofs.InsnList.Number
import Mathlib.Data.List.Nodup

/-!
# What pruning leaves

A run of `pruneUnreachable` is a sequence of steps that drop empty regions or sweep dead code
(`PruneStep`). Each sweep removes an instruction (`realCount_sweep_lt`), so there are enough rounds to
come to an end, and the body is clean then: every region covers an instruction, and every block is
marked (`pruneUnreachable_spec`).
-/

namespace DirectCall

namespace InsnList

/-- The position lies in the range of the region. -/
def Spans (list : InsnList) (r : Region) (p : Nat) : Prop :=
  ∃ start stop, list.positions.find? r.start = some start ∧ list.positions.find? r.stop = some stop ∧
    start ≤ p ∧ p < stop

theorem Spans.lt {list : InsnList} {r : Region} {p : Nat} (h : list.Spans r p) : p < list.size := by
  obtain ⟨start, stop, _, hstop, _, hlt⟩ := h
  exact Nat.lt_trans hlt (Positions.find?_lt hstop)

end InsnList

theorem Positions.find_eq_ok {positions : Positions} {id : NodeId} {p : Nat} :
    positions.find id = .ok p ↔ positions.find? id = some p := by
  rw [find]
  cases positions.find? id with
  | none => simp
  | some q => simp

namespace Body

variable {body : Body}

theorem mem_realBetween {list : InsnList} {start stop : Nat} {id : NodeId} :
    id ∈ realBetween list start stop ↔
      ∃ p, start ≤ p ∧ p < stop ∧ (list.insnAt p).isReal = true ∧ list.idAt p = id := by
  simp only [realBetween, List.mem_filter, List.mem_map, List.mem_range'_1]
  constructor
  · rintro ⟨⟨p, hp, rfl⟩, hreal⟩
    exact ⟨p, hp.1, by omega, hreal, rfl⟩
  · rintro ⟨p, hle, hlt, hreal, rfl⟩
    exact ⟨⟨p, by omega, rfl⟩, hreal⟩

/-! ## Empty regions -/

theorem covers_eq_ok {list : InsnList} {r : Region} {b : Bool} :
    covers list list.positions r = .ok b ↔
      (∃ start stop, list.positions.find? r.start = some start ∧ list.positions.find? r.stop = some stop) ∧
        (b = true ↔ ∃ p, list.Spans r p ∧ (list.insnAt p).isReal = true) := by
  simp only [covers, bind_eq_ok, Positions.find_eq_ok, pure, Except.pure, Except.ok.injEq]
  have hnone : ∀ {start stop : Nat}, list.positions.find? r.start = some start →
      list.positions.find? r.stop = some stop →
        ((!(realBetween list start stop).isEmpty) = true ↔
          ∃ p, list.Spans r p ∧ (list.insnAt p).isReal = true) := by
    intro start stop hstart hstop
    rw [Bool.not_eq_true', List.isEmpty_eq_false_iff_exists_mem]
    constructor
    · rintro ⟨id, hid⟩
      obtain ⟨p, hle, hlt, hreal, _⟩ := mem_realBetween.mp hid
      exact ⟨p, ⟨start, stop, hstart, hstop, hle, hlt⟩, hreal⟩
    · rintro ⟨p, ⟨start', stop', hstart', hstop', hle, hlt⟩, hreal⟩
      obtain rfl := Option.some.inj (hstart.symm.trans hstart')
      obtain rfl := Option.some.inj (hstop.symm.trans hstop')
      exact ⟨_, mem_realBetween.mpr ⟨p, hle, hlt, hreal, rfl⟩⟩
  constructor
  · rintro ⟨start, hstart, stop, hstop, rfl⟩
    exact ⟨⟨start, stop, hstart, hstop⟩, hnone hstart hstop⟩
  · rintro ⟨⟨start, stop, hstart, hstop⟩, hb⟩
    refine ⟨start, hstart, stop, hstop, ?_⟩
    rw [Bool.eq_iff_iff, hb, hnone hstart hstop]

/-- Every region finds its range, and those that cover an instruction stay. -/
theorem dropEmptyRegions_eq_ok {kept : Body} :
    body.dropEmptyRegions = .ok kept ↔
      (∀ r ∈ body.regions, ∃ b, covers body.insns body.insns.positions r = .ok b) ∧
        kept = { body with regions := body.regions.filter fun r =>
          (covers body.insns body.insns.positions r).toOption.getD false } := by
  simp only [dropEmptyRegions, bind_eq_ok, filterM_eq_ok, pure, Except.pure, Except.ok.injEq]
  constructor
  · rintro ⟨_, ⟨hasked, rfl⟩, rfl⟩
    exact ⟨hasked, rfl⟩
  · rintro ⟨hasked, rfl⟩
    exact ⟨_, ⟨hasked, rfl⟩, rfl⟩

theorem mem_dropEmptyRegions {kept : Body} (h : body.dropEmptyRegions = .ok kept) {r : Region} :
    r ∈ kept.regions ↔ r ∈ body.regions ∧ covers body.insns body.insns.positions r = .ok true := by
  obtain ⟨regions, hregions, h⟩ := bind_eq_ok.mp h
  obtain rfl := Except.ok.inj h
  exact mem_filterM_ok hregions

/-- Every region covers an instruction. -/
def Covering (body : Body) : Prop :=
  ∀ r ∈ body.regions, covers body.insns body.insns.positions r = .ok true

theorem Covering.dropEmptyRegions_eq (h : body.Covering) : body.dropEmptyRegions = .ok body := by
  refine dropEmptyRegions_eq_ok.mpr ⟨fun r hr => ⟨true, h r hr⟩, ?_⟩
  have hall : (body.regions.filter fun r =>
      (covers body.insns body.insns.positions r).toOption.getD false) = body.regions := by
    rw [List.filter_eq_self]
    intro r hr
    simp [h r hr, Except.toOption]
  rw [hall]

/-! ## Dead code -/

/-- The dead instructions are those of the blocks that are not marked. -/
theorem unreachable_spec {dead : List NodeId} (h : body.unreachable = .ok dead) :
    ∃ g f, BlockGraph.ofBody body = .ok g ∧ Flow.ofBody body = .ok f ∧ ∀ id, id ∈ dead ↔
      ∃ b p, f.IsBlock b ∧ g.reachable.getD b.start false = false ∧ b.start ≤ p ∧ p < b.stop ∧
        (body.insns.insnAt p).isReal = true ∧ body.insns.idAt p = id := by
  obtain ⟨g, hg, h⟩ := bind_eq_ok.mp h
  obtain rfl := Except.ok.inj h
  obtain ⟨f, hflow, _⟩ := bind_eq_ok.mp hg
  refine ⟨g, f, hg, hflow, fun id => ?_⟩
  simp only [List.mem_flatMap, List.mem_filter, mem_realBetween, Bool.not_eq_true',
    (BlockGraph.draws_of_ofBody hg hflow).mem_blocks]
  constructor
  · rintro ⟨b, ⟨hb, hmark⟩, p, hle, hlt, hreal, hid⟩
    exact ⟨b, p, hb, hmark, hle, hlt, hreal, hid⟩
  · rintro ⟨b, p, hb, hmark, hle, hlt, hreal, hid⟩
    exact ⟨b, ⟨hb, hmark⟩, p, hle, hlt, hreal, hid⟩

/-- What a search in so many steps says of the dead instructions. -/
theorem unreachable_of_reachWithin {g : BlockGraph} {entry : Block} {marks : Array Bool}
    {dead : List NodeId} (fuel : Nat) (hg : BlockGraph.ofBody body = .ok g)
    (hentry : g.blocks.head? = some entry)
    (h : Graph.reachWithin (fun v => (g.adjacency g.bound).getD v []) fuel (Array.replicate g.bound false)
      [entry.start] = some marks)
    (hdead : ((g.blocks.filter fun b => !marks.getD b.start false).flatMap fun b =>
      realBetween body.insns b.start b.stop) = dead) : body.unreachable = .ok dead := by
  have hmarks : g.reachable = marks := by
    obtain ⟨rest, hrest⟩ := List.head?_eq_some_iff.mp hentry
    rw [g.reachable_eq hrest, Graph.reach, Graph.reachFrom_of_reachWithin h]
  exact bind_eq_ok.mpr ⟨g, hg, by rw [hmarks, ← hdead]; rfl⟩

/-- Dead instructions stand in the list. -/
theorem mem_order_of_unreachable {dead : List NodeId} (h : body.unreachable = .ok dead) {id : NodeId}
    (hid : id ∈ dead) : id ∈ body.insns.order ∧ (body.insns.get id).isReal = true := by
  obtain ⟨g, f, _, hflow, hdead⟩ := unreachable_spec h
  obtain ⟨b, p, hb, _, _, hlt, hreal, rfl⟩ := (hdead id).mp hid
  have hinside := hb.inside
  rw [Flow.size, Flow.list_of_ofBody hflow] at hinside
  exact ⟨InsnList.mem_order.mpr ⟨p, by omega, rfl⟩, hreal⟩

/-- The body without the dead instructions. -/
def sweep (body : Body) (dead : List NodeId) : Body :=
  { body with insns := body.insns.commit (EditPlan.empty.removeAll dead) }

theorem mem_order_sweep {dead : List NodeId} {id : NodeId} (h : id ∈ (body.sweep dead).insns.order) :
    id ∈ body.insns.order ∧ id ∉ dead := by
  obtain ⟨hplace, hkept⟩ := EditPlan.mem_apply h
  simp only [EditPlan.insertedBefore_removeAll, EditPlan.insertedBefore_empty, List.not_mem_nil,
    exists_false, or_false] at hplace
  rw [EditPlan.contains_removeAll] at hkept
  exact ⟨hplace, by simpa [EditPlan.empty] using hkept⟩

theorem realCount_eq :
    body.realCount = body.insns.order.toList.countP fun id => (body.insns.get id).isReal := by
  rw [realCount, ← Array.length_toList, Array.toList_filter, ← List.countP_eq_length_filter, InsnList.insns,
    Array.toList_map, List.countP_map]
  rfl

/-- A sweep removes an instruction. -/
theorem realCount_sweep_lt {dead : List NodeId} (h : body.unreachable = .ok dead) (hdead : dead ≠ []) :
    (body.sweep dead).realCount < body.realCount := by
  obtain ⟨id, hid⟩ := List.exists_mem_of_ne_nil dead hdead
  obtain ⟨hplace, hreal⟩ := mem_order_of_unreachable h hid
  rw [realCount_eq, realCount_eq, List.countP_eq_length_filter, List.countP_eq_length_filter]
  have hnodup : (id :: (body.sweep dead).insns.order.toList.filter
      fun n => (body.insns.get n).isReal).Nodup := by
    refine List.nodup_cons.mpr ⟨fun hmem => ?_, (EditPlan.apply_nodup _ _).filter _⟩
    have hmem := (List.mem_filter.mp hmem).1
    exact (mem_order_sweep (by simpa using hmem)).2 hid
  refine (hnodup.subperm fun n hn => ?_).length_le
  rcases List.mem_cons.mp hn with rfl | hn
  · exact List.mem_filter.mpr ⟨by simpa using hplace, hreal⟩
  · obtain ⟨hmem, hreal⟩ := List.mem_filter.mp hn
    exact List.mem_filter.mpr ⟨by simpa using (mem_order_sweep (by simpa using hmem)).1, hreal⟩

/-! ## Runs -/

/-- One step of pruning. -/
inductive PruneStep : Body → Body → Prop where
  | drop {a b : Body} : a.dropEmptyRegions = .ok b → PruneStep a b
  | sweep {a : Body} {dead : List NodeId} : a.unreachable = .ok dead → dead ≠ [] →
      PruneStep a (a.sweep dead)

/-- Every region covers an instruction, and no instruction is dead. -/
structure Clean (body : Body) : Prop where
  covering : body.Covering
  live : body.unreachable = .ok []

/-- What a run of pruning has made of a body. -/
structure Pruned (a b : Body) (removed : Nat) : Prop where
  steps : Relation.ReflTransGen PruneStep a b
  clean : b.Clean
  /-- If nothing was removed, only empty regions went. -/
  idle : removed = 0 → a.dropEmptyRegions = .ok b
  /-- Removed instructions have lost their place. -/
  busy : 0 < removed → ∃ id ∈ a.insns.order, id ∉ b.insns.order

theorem PruneStep.mem_order {a b : Body} (h : PruneStep a b) {id : NodeId} (hid : id ∈ b.insns.order) :
    id ∈ a.insns.order := by
  cases h with
  | drop h =>
    obtain ⟨_, rfl⟩ := dropEmptyRegions_eq_ok.mp h
    exact hid
  | sweep h hdead => exact (mem_order_sweep hid).1

theorem mem_order_of_steps {a b : Body} (h : Relation.ReflTransGen PruneStep a b) {id : NodeId}
    (hid : id ∈ b.insns.order) : id ∈ a.insns.order := by
  induction h with
  | refl => exact hid
  | tail _ hstep ih => exact ih (hstep.mem_order hid)

theorem PruneStep.regions_sublist {a b : Body} (h : PruneStep a b) : b.regions.Sublist a.regions := by
  cases h with
  | drop hdrop =>
    obtain ⟨_, rfl⟩ := dropEmptyRegions_eq_ok.mp hdrop
    exact List.filter_sublist
  | sweep _ _ => exact .refl _

theorem Pruned.regions_sublist {a b : Body} {removed : Nat} (h : a.Pruned b removed) :
    b.regions.Sublist a.regions := by
  have hsteps := h.steps
  clear h
  induction hsteps with
  | refl => exact .refl _
  | tail _ hstep ih => exact hstep.regions_sublist.trans ih

theorem pruneRounds_spec {rounds removed total : Nat} {b : Body} (hrounds : body.realCount < rounds)
    (h : pruneRounds rounds body removed = .ok (b, total)) :
    ∃ count, total = removed + count ∧ body.Pruned b count := by
  induction rounds generalizing body removed with
  | zero => exact absurd hrounds (Nat.not_lt_zero _)
  | succ rounds ih =>
    obtain ⟨kept, hkept, h⟩ := bind_eq_ok.mp h
    obtain ⟨dead, hdead, h⟩ := bind_eq_ok.mp h
    have hdrop : Relation.ReflTransGen PruneStep body kept := .single (.drop hkept)
    have hsame : kept.insns = body.insns := by
      obtain ⟨_, rfl⟩ := dropEmptyRegions_eq_ok.mp hkept
      rfl
    have hcovering : kept.Covering := by
      intro r hr
      rw [hsame]
      exact ((mem_dropEmptyRegions hkept).mp hr).2
    split_ifs at h with hempty
    · obtain rfl := List.isEmpty_iff.mp hempty
      obtain ⟨rfl, rfl⟩ := Prod.mk.inj (Except.ok.inj h)
      exact ⟨0, rfl, hdrop, ⟨hcovering, hdead⟩, fun _ => hkept, fun hpos => absurd hpos (Nat.lt_irrefl _)⟩
    · have hne : dead ≠ [] := fun hnil => hempty (List.isEmpty_iff.mpr hnil)
      have hlt := realCount_sweep_lt hdead hne
      have hcount : kept.realCount = body.realCount := by rw [realCount, realCount, hsame]
      have hless : (kept.sweep dead).realCount < rounds := by omega
      obtain ⟨count, hcounts, hpruned⟩ := ih hless h
      have hpos : 0 < dead.length := List.length_pos_iff.mpr hne
      refine ⟨dead.length + count, by omega, (hdrop.tail (.sweep hdead hne)).trans hpruned.steps,
        hpruned.clean, fun hnone => by omega, fun _ => ?_⟩
      obtain ⟨id, hid⟩ := List.exists_mem_of_ne_nil dead hne
      refine ⟨id, hsame ▸ (mem_order_of_unreachable hdead hid).1, fun hmem => ?_⟩
      exact (mem_order_sweep (mem_order_of_steps hpruned.steps hmem)).2 hid

/-- Pruning that succeeds leaves a clean body, and says how many instructions it removed. -/
theorem pruneUnreachable_spec {b : Body} {removed : Nat} (h : body.pruneUnreachable = .ok (b, removed)) :
    body.Pruned b removed := by
  obtain ⟨count, hcount, hpruned⟩ := pruneRounds_spec (Nat.lt_succ_self _) h
  rw [Nat.zero_add] at hcount
  exact hcount ▸ hpruned

/-- A round that finds no dead code only drops empty regions. -/
theorem pruneRounds_of_live {rounds removed : Nat} {kept : Body} (hdrop : body.dropEmptyRegions = .ok kept)
    (hlive : kept.unreachable = .ok []) : pruneRounds (rounds + 1) body removed = .ok (kept, removed) :=
  bind_eq_ok.mpr ⟨kept, hdrop, bind_eq_ok.mpr ⟨[], hlive, rfl⟩⟩

/-- A round that finds dead code sweeps it. -/
theorem pruneRounds_of_dead {rounds removed : Nat} {kept : Body} {dead : List NodeId}
    (hdrop : body.dropEmptyRegions = .ok kept) (hdead : kept.unreachable = .ok dead) (hne : dead ≠ []) :
    pruneRounds (rounds + 1) body removed = pruneRounds rounds (kept.sweep dead) (removed + dead.length) := by
  have hsome : ¬ dead.isEmpty = true := fun hnil => hne (List.isEmpty_iff.mp hnil)
  rw [pruneRounds, hdrop]
  simp only [bind, Except.bind, hdead, if_neg hsome]
  rfl

end Body

end DirectCall
