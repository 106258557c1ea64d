import DirectCall.CallSite.Handlers
import DirectCall.Proofs.Flow.Survive

/-!
# Steps of handler pruning

A run of `pruneHandlers` is a sequence of steps that forget a prunable group or prune the body
(`pruneHandlers_steps`). Each step leaves a part of the instructions and of the regions.
-/

namespace DirectCall.Body

variable {body : Body} {h : Hierarchy} {g : HandlerGroup}

/-! ## Groups -/

theorem inGroup_iff {r : Region} : inGroup g r = true ↔ r.handler = g.1 ∧ r.catchType = some g.2 := by
  rw [inGroup, Bool.and_eq_true, beq_iff_eq, beq_iff_eq]

theorem group?_eq_some {r : Region} :
    group? r = some g ↔ inGroup g r = true ∧ g.2 ∈ reflectiveFailures := by
  rw [inGroup_iff, group?]
  split
  · rename_i kind hkind
    split_ifs with hfails
    · rw [List.contains_iff_mem] at hfails
      constructor
      · rintro ⟨⟩
        exact ⟨⟨rfl, hkind⟩, hfails⟩
      · rintro ⟨⟨hhandler, hcatch⟩, _⟩
        obtain rfl := Option.some.inj (hkind.symm.trans hcatch)
        rw [hhandler]
    · rw [List.contains_iff_mem] at hfails
      simp only [false_iff, not_and]
      rintro ⟨_, hcatch⟩ hmem
      obtain rfl := Option.some.inj (hkind.symm.trans hcatch)
      exact hfails hmem
  · rename_i hnone
    simp [hnone]

theorem isJoint_iff : body.isJoint g = true ↔
    ∃ r ∈ body.regions, r.handler = g.1 ∧ r.catchType ≠ some g.2 ∧
      ∃ s ∈ body.regions, inGroup g s = true ∧ s.start = r.start ∧ s.stop = r.stop := by
  simp only [isJoint, List.any_eq_true, List.mem_filter, Bool.and_eq_true, beq_iff_eq, bne_iff_ne, and_assoc]

theorem isQuiet_iff {kind : String} {r : Region} :
    body.isQuiet h body.insns.positions kind r = true ↔
      (∃ start stop, body.insns.positions.find? r.start = some start ∧
        body.insns.positions.find? r.stop = some stop) ∧
          ∀ p, body.insns.Spans r p → (body.insns.insnAt p).mayThrow h kind = false := by
  rw [isQuiet]
  split
  · rename_i start stop hstart hstop
    simp only [List.all_eq_true, List.mem_range'_1, Bool.not_eq_true']
    constructor
    · intro hquiet
      refine ⟨⟨start, stop, hstart, hstop⟩, ?_⟩
      rintro p ⟨start', stop', hstart', hstop', hle, hlt⟩
      obtain rfl := Option.some.inj (hstart.symm.trans hstart')
      obtain rfl := Option.some.inj (hstop.symm.trans hstop')
      exact hquiet p (by omega)
    · rintro ⟨_, hquiet⟩ p hp
      exact hquiet p ⟨start, stop, hstart, hstop, hp.1, by omega⟩
  · rename_i hnone
    simp only [Bool.false_eq_true, false_iff]
    rintro ⟨⟨start, stop, hstart, hstop⟩, _⟩
    exact hnone start stop hstart hstop

theorem isPrunable_iff : body.isPrunable h body.insns.positions g = true ↔
    body.isJoint g = false ∧ ∀ r ∈ body.regions, inGroup g r = true →
      body.isQuiet h body.insns.positions g.2 r = true := by
  simp only [isPrunable, Bool.and_eq_true, Bool.not_eq_true', List.all_eq_true, List.mem_filter, and_imp]

/-- Some region belongs to a group of a reflective failure. -/
theorem mem_groups_iff : g ∈ body.regions.filterMap group? ↔
    g.2 ∈ reflectiveFailures ∧ ∃ r ∈ body.regions, inGroup g r = true := by
  simp only [List.mem_filterMap, group?_eq_some]
  constructor
  · rintro ⟨r, hr, hgroup, hfails⟩
    exact ⟨hfails, r, hr, hgroup⟩
  · rintro ⟨hfails, r, hr, hgroup⟩
    exact ⟨r, hr, hgroup, hfails⟩

/-! ## Scans -/

/-- What a scan for a prunable group finds, and what it has rejected by then. -/
structure Scanned (body : Body) (h : Hierarchy) (rejected groups : List HandlerGroup)
    (found : Option HandlerGroup) (rejected' : List HandlerGroup) : Prop where
  takes : ∀ g, found = some g → g ∈ groups ∧ g ∉ rejected ∧ body.isPrunable h body.insns.positions g = true
  passes : found = none → ∀ g ∈ groups, g ∈ rejected'
  kept : ∀ g ∈ rejected, g ∈ rejected'
  added : ∀ g ∈ rejected', g ∈ rejected ∨
    g ∈ groups ∧ body.isPrunable h body.insns.positions g = false

theorem scanned_of_nextPrunable {rejected groups rejected' : List HandlerGroup} {found : Option HandlerGroup}
    (hnext : body.nextPrunable h body.insns.positions rejected groups = (found, rejected')) :
    body.Scanned h rejected groups found rejected' := by
  induction groups generalizing rejected with
  | nil =>
    obtain ⟨rfl, rfl⟩ := Prod.mk.inj hnext
    exact ⟨by simp, by simp, fun g hg => hg, fun g hg => .inl hg⟩
  | cons first rest ih =>
    rw [nextPrunable] at hnext
    split_ifs at hnext with hseen hprunable
    · rw [List.contains_iff_mem] at hseen
      have hrest := ih hnext
      refine ⟨fun g hg => ?_, fun hnone g hg => ?_, hrest.kept, fun g hg => ?_⟩
      · obtain ⟨hmem, hfresh⟩ := hrest.takes g hg
        exact ⟨List.mem_cons_of_mem _ hmem, hfresh⟩
      · rcases List.mem_cons.mp hg with rfl | hg
        · exact hrest.kept g hseen
        · exact hrest.passes hnone g hg
      · exact (hrest.added g hg).imp_right (And.imp_left (List.mem_cons_of_mem _))
    · rw [List.contains_iff_mem] at hseen
      obtain ⟨rfl, rfl⟩ := Prod.mk.inj hnext
      refine ⟨?_, by simp, fun g hg => hg, fun g hg => .inl hg⟩
      rintro g ⟨⟩
      exact ⟨List.mem_cons_self, hseen, hprunable⟩
    · have hrest := ih hnext
      refine ⟨fun g hg => ?_, fun hnone g hg => ?_, fun g hg => hrest.kept g (List.mem_cons_of_mem _ hg),
        fun g hg => ?_⟩
      · obtain ⟨hmem, hfresh, hfound⟩ := hrest.takes g hg
        exact ⟨List.mem_cons_of_mem _ hmem, fun hold => hfresh (List.mem_cons_of_mem _ hold), hfound⟩
      · rcases List.mem_cons.mp hg with rfl | hg
        · exact hrest.kept g List.mem_cons_self
        · exact hrest.passes hnone g hg
      · rcases hrest.added g hg with hold | ⟨hmem, hrejected⟩
        · rcases List.mem_cons.mp hold with rfl | hold
          · exact .inr ⟨List.mem_cons_self, Bool.eq_false_iff.mpr hprunable⟩
          · exact .inl hold
        · exact .inr ⟨List.mem_cons_of_mem _ hmem, hrejected⟩

/-! ## Runs -/

/-- The body without the regions of a group. -/
def forget (body : Body) (g : HandlerGroup) : Body :=
  { body with regions := body.regions.filter fun r => !inGroup g r }

theorem mem_forget {r : Region} : r ∈ (body.forget g).regions ↔ r ∈ body.regions ∧ inGroup g r = false := by
  rw [forget, List.mem_filter, Bool.not_eq_true']

/-- One step of handler pruning. -/
inductive HandlerStep (h : Hierarchy) : Body → Body → Prop where
  | forget {a : Body} {g : HandlerGroup} : g.2 ∈ reflectiveFailures →
      a.isPrunable h a.insns.positions g = true → HandlerStep h a (a.forget g)
  | prune {a b : Body} : PruneStep a b → HandlerStep h a b

theorem HandlerStep.mem_order {a b : Body} (hstep : HandlerStep h a b) {id : NodeId}
    (hid : id ∈ b.insns.order) : id ∈ a.insns.order := by
  cases hstep with
  | forget _ _ => exact hid
  | prune hstep => exact hstep.mem_order hid

theorem mem_order_of_handlerSteps {a b : Body} (hsteps : Relation.ReflTransGen (HandlerStep h) a b)
    {id : NodeId} (hid : id ∈ b.insns.order) : id ∈ a.insns.order := by
  induction hsteps with
  | refl => exact hid
  | tail _ hstep ih => exact ih (hstep.mem_order hid)

theorem pruneHandlersFrom_of_none {rounds removed : Nat} {rejected rejected' : List HandlerGroup}
    (hnext : body.nextPrunable h body.insns.positions rejected (body.regions.filterMap group?) =
      (none, rejected')) :
    pruneHandlersFrom h (rounds + 1) rejected body removed = .ok (body, removed) := by
  rw [pruneHandlersFrom, hnext]
  rfl

theorem pruneHandlersFrom_of_some {rounds removed dead : Nat} {rejected rejected' : List HandlerGroup}
    {next : Body} (hnext : body.nextPrunable h body.insns.positions rejected
      (body.regions.filterMap group?) = (some g, rejected'))
    (hprune : (body.forget g).pruneUnreachable = .ok (next, dead)) :
    pruneHandlersFrom h (rounds + 1) rejected body removed =
      pruneHandlersFrom h rounds (if 0 < dead then [] else rejected') next
        (removed + (body.regions.length - (body.forget g).regions.length)) := by
  have hprune' : ({ body with regions := body.regions.filter fun r => !inGroup g r } :
      Body).pruneUnreachable = .ok (next, dead) := hprune
  rw [pruneHandlersFrom, hnext]
  simp only [hprune']
  rfl

/-- What one round does: a prunable group is found, and the body pruned without it. -/
theorem pruneHandlersFrom_succ {rounds removed total : Nat} {rejected : List HandlerGroup} {b : Body}
    (hrun : pruneHandlersFrom h (rounds + 1) rejected body removed = .ok (b, total)) :
    (∃ rejected', body.nextPrunable h body.insns.positions rejected (body.regions.filterMap group?) =
        (none, rejected') ∧ b = body ∧ total = removed) ∨
    ∃ g rejected' next dead,
      body.nextPrunable h body.insns.positions rejected (body.regions.filterMap group?) =
        (some g, rejected') ∧ (body.forget g).Pruned next dead ∧
      pruneHandlersFrom h rounds (if 0 < dead then [] else rejected') next
        (removed + (body.regions.length - (body.forget g).regions.length)) = .ok (b, total) := by
  rw [pruneHandlersFrom] at hrun
  split at hrun
  · rename_i rejected' hnext
    obtain ⟨rfl, rfl⟩ := Prod.mk.inj (Except.ok.inj hrun)
    exact .inl ⟨rejected', hnext, rfl, rfl⟩
  · rename_i g rejected' hnext
    obtain ⟨⟨next, dead⟩, hprune, hrun⟩ := bind_eq_ok.mp hrun
    exact .inr ⟨g, rejected', next, dead, hnext, pruneUnreachable_spec hprune, hrun⟩

/-- A run is a sequence of steps. What it leaves is clean, unless it did nothing. -/
theorem pruneHandlersFrom_steps {rounds removed total : Nat} {rejected : List HandlerGroup} {b : Body}
    (hrun : pruneHandlersFrom h rounds rejected body removed = .ok (b, total)) :
    Relation.ReflTransGen (HandlerStep h) body b ∧ (b = body ∨ b.Clean) := by
  induction rounds generalizing rejected body removed with
  | zero =>
    obtain ⟨rfl, _⟩ := Prod.mk.inj (Except.ok.inj hrun)
    exact ⟨.refl, .inl rfl⟩
  | succ rounds ih =>
    rcases pruneHandlersFrom_succ hrun with ⟨_, _, rfl, _⟩ | ⟨g, _, next, dead, hnext, hpruned, hrun⟩
    · exact ⟨.refl, .inl rfl⟩
    · obtain ⟨hmem, _, hprunable⟩ := (scanned_of_nextPrunable hnext).takes g rfl
      obtain ⟨hsteps, hclean⟩ := ih hrun
      have hforget : HandlerStep h body (body.forget g) := .forget (mem_groups_iff.mp hmem).1 hprunable
      have hprune : Relation.ReflTransGen (HandlerStep h) (body.forget g) next :=
        hpruned.steps.lift id fun _ _ => .prune
      refine ⟨.head hforget (hprune.trans hsteps), .inr ?_⟩
      rcases hclean with rfl | hclean
      · exact hpruned.clean
      · exact hclean

theorem pruneHandlers_steps {b : Body} {removed : Nat} (hrun : body.pruneHandlers h = .ok (b, removed)) :
    Relation.ReflTransGen (HandlerStep h) body b ∧ (b = body ∨ b.Clean) :=
  pruneHandlersFrom_steps hrun

end DirectCall.Body
