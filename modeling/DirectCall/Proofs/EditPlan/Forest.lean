import DirectCall.InsnList
import DirectCall.Proofs.EditPlan.Apply
import Mathlib.Data.List.Flatten
import Mathlib.Logic.Relation

/-!
# Edits that depend on each other

A node may be placed ahead of one that moves, that is removed, or that is itself placed ahead of another.
If every such chain of anchors ends at a node that stays, the anchors make a forest, and carrying out the
plan lays out its trees one after the other (`apply_carried`): no node is lost or laid out twice, each
stands ahead of its anchor in the order of the plan, and the others keep theirs.
-/

namespace DirectCall.EditPlan

open Relation

/-- The second node is placed ahead of the first one. -/
def Anchors (plan : EditPlan) (anchor id : NodeId) : Prop := id ∈ plan.insertedBefore anchor

/-- The node is placed ahead of some other. -/
def Scheduled (plan : EditPlan) (id : NodeId) : Prop := ∃ anchor, plan.Anchors anchor id

/-- A plan as it comes about, entry by entry. -/
inductive Composed : EditPlan → Prop where
  | empty : Composed empty
  | remove {plan : EditPlan} (h : Composed plan) (id : NodeId) : Composed (plan.remove id)
  | insertBefore {plan : EditPlan} (h : Composed plan) (anchor : NodeId) (ids : List NodeId) :
    Composed (plan.insertBefore anchor ids)
  | moveBefore {plan : EditPlan} (h : Composed plan) (anchor : NodeId) (ids : List NodeId) :
    Composed (plan.moveBefore anchor ids)

theorem Composed.removeAll {plan : EditPlan} (h : plan.Composed) (ids : List NodeId) :
    (plan.removeAll ids).Composed := by
  induction ids generalizing plan with
  | nil => exact h
  | cons id ids ih => exact ih (h.remove id)

theorem Scheduled.insertBefore {plan : EditPlan} {id : NodeId} (h : plan.Scheduled id) (site : NodeId)
    (ids : List NodeId) : (plan.insertBefore site ids).Scheduled id := by
  obtain ⟨anchor, hanchor⟩ := h
  refine ⟨anchor, ?_⟩
  rw [Anchors, insertedBefore_insertBefore]
  split_ifs with heq
  · exact List.mem_append_left ids (heq ▸ hanchor)
  · exact hanchor

/-- To move a node is to schedule it. -/
theorem Composed.scheduled {plan : EditPlan} (h : plan.Composed) {id : NodeId}
    (hmoved : plan.moved.contains id = true) : plan.Scheduled id := by
  induction h with
  | empty => simp [EditPlan.empty] at hmoved
  | remove _ _ ih => exact ih hmoved
  | insertBefore _ anchor ids ih => exact (ih hmoved).insertBefore anchor ids
  | @moveBefore plan _ anchor ids ih =>
    rw [contains_moveBefore, Bool.or_eq_true, decide_eq_true_eq] at hmoved
    rcases hmoved with hmoved | hmem
    · exact (ih hmoved).insertBefore anchor ids
    · refine ⟨anchor, ?_⟩
      rw [Anchors, insertedBefore_moveBefore, if_pos rfl]
      exact List.mem_append_right _ hmem

/-- The plan schedules each node once, exactly those of the order among them that it moves, and who
follows the anchors from a scheduled node comes to a node of the order that stays. What is moved is
scheduled in any plan that comes about (`Composed.scheduled`). -/
structure WellStaged (plan : EditPlan) (order : List NodeId) : Prop where
  once : ∀ anchor, (plan.insertedBefore anchor).Nodup
  alone : ∀ anchor anchor' id, plan.Anchors anchor id → plan.Anchors anchor' id → anchor = anchor'
  moves : ∀ id ∈ order, plan.Scheduled id → plan.moved.contains id = true
  placed : ∀ id, plan.moved.contains id = true → plan.Scheduled id
  rooted : ∀ id, plan.Scheduled id → ∃ root ∈ order, plan.moved.contains root = false ∧
    ReflTransGen plan.Anchors root id

/-! ## The forest of anchors -/

/-- A rank that grows by one from an anchor to a node that is placed ahead of it, and starts at zero. -/
structure Ranks (plan : EditPlan) (rank : NodeId → Nat) : Prop where
  next : ∀ anchor id, plan.Anchors anchor id → rank id = rank anchor + 1
  first : ∀ id, ¬ plan.Scheduled id → rank id = 0

section WellStaged

variable {plan : EditPlan} {order : List NodeId}

theorem WellStaged.stays (h : plan.WellStaged order) {id : NodeId} (hid : id ∈ order)
    (hstays : plan.moved.contains id = false) : ¬ plan.Scheduled id := by
  intro hscheduled
  rw [h.moves id hid hscheduled] at hstays
  cases hstays

theorem WellStaged.wellFounded (h : plan.WellStaged order) : WellFounded plan.Anchors := by
  have hroot : ∀ {root id}, root ∈ order → plan.moved.contains root = false →
      ReflTransGen plan.Anchors root id → Acc plan.Anchors id := by
    intro root id hroot hstays hpath
    induction hpath with
    | refl => exact ⟨_, fun anchor hanchor => absurd ⟨anchor, hanchor⟩ (h.stays hroot hstays)⟩
    | tail _ hlast ih => exact ⟨_, fun anchor hanchor => h.alone _ _ _ hlast hanchor ▸ ih⟩
  refine ⟨fun id => ⟨id, fun anchor hanchor => ?_⟩⟩
  obtain ⟨root, hmem, hstays, hpath⟩ := h.rooted id ⟨anchor, hanchor⟩
  exact (hroot hmem hstays hpath).inv hanchor

/-- The number of anchors on the way to a node. -/
theorem WellStaged.exists_ranks (h : plan.WellStaged order) : ∃ rank, plan.Ranks rank := by
  classical
  refine ⟨h.wellFounded.fix fun id rank => if hid : ∃ anchor, plan.Anchors anchor id
    then rank hid.choose hid.choose_spec + 1 else 0, fun anchor id hanchor => ?_, fun id hid => ?_⟩
  · have hid : ∃ anchor, plan.Anchors anchor id := ⟨anchor, hanchor⟩
    rw [WellFounded.fix_eq, dif_pos hid]
    dsimp only
    rw [h.alone _ _ _ hid.choose_spec hanchor]
  · rw [WellFounded.fix_eq]
    exact dif_neg hid

variable {rank : NodeId → Nat}

theorem Ranks.lt (hrank : plan.Ranks rank) (anchor : NodeId) :
    ∀ id ∈ plan.insertedBefore anchor, rank anchor < rank id := by
  intro id hid
  have hnext := hrank.next anchor id hid
  omega

theorem Ranks.le_of_reaches (hrank : plan.Ranks rank) {x m : NodeId}
    (h : ReflTransGen plan.Anchors x m) : rank x ≤ rank m := by
  induction h with
  | refl => exact le_rfl
  | tail _ hlast ih =>
    have hnext := hrank.next _ _ hlast
    omega

/-- Two nodes of one rank from which the same node is reached are one node, as its anchors are. -/
theorem WellStaged.eq_of_reaches (h : plan.WellStaged order) (hrank : plan.Ranks rank) {x y m : NodeId}
    (hsame : rank x = rank y) (hx : ReflTransGen plan.Anchors x m)
    (hy : ReflTransGen plan.Anchors y m) : x = y := by
  induction hx with
  | refl =>
    rcases hy.cases_tail with hy | ⟨anchor, hy, hlast⟩
    · exact hy
    · have hle := hrank.le_of_reaches hy
      have hnext := hrank.next _ _ hlast
      omega
  | tail hx hlast ih =>
    rcases hy.cases_tail with rfl | ⟨anchor, hy, hlast'⟩
    · have hle := hrank.le_of_reaches hx
      have hnext := hrank.next _ _ hlast
      omega
    · exact ih (h.alone _ _ _ hlast hlast' ▸ hy)

/-! ## Blocks as trees -/

theorem blockWithin_stable (hrank : plan.Ranks rank) {depth : Nat} {id : NodeId}
    (h : (plan.anchors rank (rank id)).card < depth) :
    plan.blockWithin depth id = plan.blockWithin (depth + 1) id := by
  induction depth generalizing id with
  | zero => omega
  | succ depth ih =>
    rw [blockWithin, blockWithin]
    refine congrArg (· ++ [id]) (List.flatMap_congr fun n hn => ih ?_)
    exact Nat.lt_of_lt_of_le (card_anchors_lt hrank.lt hn) (Nat.le_of_lt_succ h)

/-- The block of a node is made up of those of the nodes placed ahead of it. -/
theorem block_eq (hrank : plan.Ranks rank) (id : NodeId) :
    plan.block id = (plan.insertedBefore id).flatMap plan.block ++ [id] := by
  rw [block, blockWithin]
  refine congrArg (· ++ [id]) (List.flatMap_congr fun n hn => blockWithin_stable hrank ?_)
  exact Nat.lt_of_lt_of_le (card_anchors_lt hrank.lt hn) (card_anchors_le plan rank (rank id))

theorem reaches_of_mem_blockWithin {depth : Nat} {id n : NodeId} (h : n ∈ plan.blockWithin depth id) :
    ReflTransGen plan.Anchors id n := by
  induction depth generalizing id with
  | zero => exact absurd h List.not_mem_nil
  | succ depth ih =>
    rw [blockWithin] at h
    rcases List.mem_append.mp h with h | h
    · obtain ⟨next, hnext, h⟩ := List.mem_flatMap.mp h
      exact (ih h).head hnext
    · rw [List.mem_singleton.mp h]

/-- A block holds what is reached from its node. -/
theorem mem_block_iff (hrank : plan.Ranks rank) {id n : NodeId} :
    n ∈ plan.block id ↔ ReflTransGen plan.Anchors id n := by
  refine ⟨reaches_of_mem_blockWithin, fun h => ?_⟩
  induction h using ReflTransGen.head_induction_on with
  | refl =>
    rw [block_eq hrank]
    simp
  | head hnext _ ih =>
    rw [block_eq hrank]
    exact List.mem_append_left _ (List.mem_flatMap.mpr ⟨_, hnext, ih⟩)

/-- Blocks of different nodes of one rank have no node in common. -/
theorem WellStaged.nodup_flatMap (h : plan.WellStaged order) (hrank : plan.Ranks rank)
    {ids : List NodeId} (hids : ids.Nodup) (hsame : ∀ x ∈ ids, ∀ y ∈ ids, rank x = rank y) {depth : Nat}
    (hblocks : ∀ id ∈ ids, (plan.blockWithin depth id).Nodup) :
    (ids.flatMap (plan.blockWithin depth)).Nodup := by
  refine List.nodup_flatMap.mpr ⟨hblocks, hids.pairwise_of_forall_ne fun x hx y hy hne => ?_⟩
  intro n hnx hny
  exact hne (h.eq_of_reaches hrank (hsame x hx y hy) (reaches_of_mem_blockWithin hnx)
    (reaches_of_mem_blockWithin hny))

theorem WellStaged.nodup_blockWithin (h : plan.WellStaged order) (hrank : plan.Ranks rank)
    (depth : Nat) (id : NodeId) : (plan.blockWithin depth id).Nodup := by
  induction depth generalizing id with
  | zero => exact List.nodup_nil
  | succ depth ih =>
    have hsame : ∀ x ∈ plan.insertedBefore id, ∀ y ∈ plan.insertedBefore id, rank x = rank y := by
      intro x hx y hy
      rw [hrank.next id x hx, hrank.next id y hy]
    rw [blockWithin, ← List.concat_eq_append]
    refine (h.nodup_flatMap hrank (h.once id) hsame fun n _ => ih n).concat fun hmem => ?_
    -- The node itself ranks below all that is placed ahead of it.
    obtain ⟨n, hn, hmem⟩ := List.mem_flatMap.mp hmem
    have hle := hrank.le_of_reaches (reaches_of_mem_blockWithin hmem)
    have hlt := hrank.lt id n hn
    omega

/-- The blocks of the nodes that stay, one after the other. -/
theorem WellStaged.nodup_blocks (h : plan.WellStaged order) (hrank : plan.Ranks rank)
    (horder : order.Nodup) :
    ((order.filter fun id => !plan.moved.contains id).flatMap plan.block).Nodup := by
  have hfirst : ∀ id ∈ order.filter fun id => !plan.moved.contains id, rank id = 0 := by
    intro id hid
    obtain ⟨hmem, hstays⟩ := List.mem_filter.mp hid
    exact hrank.first id (h.stays hmem (by simpa using hstays))
  refine h.nodup_flatMap hrank (horder.filter _) (fun x hx y hy => ?_) fun id _ =>
    h.nodup_blockWithin hrank _ id
  rw [hfirst x hx, hfirst y hy]

theorem isInfix_of_reaches (hrank : plan.Ranks rank) {root id : NodeId}
    (h : ReflTransGen plan.Anchors root id) : plan.block id <:+: plan.block root := by
  induction h with
  | refl => exact List.infix_refl _
  | @tail anchor id _ hlast ih =>
    rw [block_eq hrank anchor] at ih
    exact ((List.infix_flatMap_of_mem hlast plan.block).trans (List.prefix_append _ _).isInfix).trans ih

/-! ## The new order -/

/-- The order with everything in the place that the plan gives it, before nodes are left out. -/
def standing (plan : EditPlan) (order : Array NodeId) : List NodeId :=
  (({ plan with removed := ∅ } : EditPlan).apply order).toList

/-- What an order is after the plan was carried out. The old and the scheduled nodes are there, each once,
but for the removed ones. Each stands directly behind the blocks of the nodes placed ahead of it, or would
stand there if it was not left out; and so does the order of the nodes that the plan leaves alone. -/
structure Carried (plan : EditPlan) (order after : Array NodeId) : Prop where
  nodup : after.toList.Nodup
  mem_iff : ∀ id, id ∈ after ↔ (id ∈ order ∨ plan.Scheduled id) ∧ plan.removed.contains id = false
  removes : after.toList = (plan.standing order).filter fun id => !plan.removed.contains id
  block : ∀ id, plan.block id = (plan.insertedBefore id).flatMap plan.block ++ [id]
  stands : ∀ id, id ∈ order ∨ plan.Scheduled id →
    (plan.insertedBefore id).flatMap plan.block ++ [id] <:+: plan.standing order
  ahead : ∀ id, id ∈ order ∨ plan.Scheduled id →
    ((plan.insertedBefore id).flatMap plan.block ++ [id]).filter (fun n => !plan.removed.contains n) <:+:
      after.toList
  keeps : (order.toList.filter fun id => !plan.moved.contains id && !plan.removed.contains id).Sublist
    after.toList

end WellStaged

section Carried

variable {plan : EditPlan} {order : Array NodeId}

/-- What is removed does not change a block. -/
theorem block_keepAll (plan : EditPlan) : ({ plan with removed := ∅ } : EditPlan).block = plan.block := by
  have hwithin : ∀ depth id, ({ plan with removed := ∅ } : EditPlan).blockWithin depth id =
      plan.blockWithin depth id := by
    intro depth
    induction depth with
    | zero => exact fun _ => rfl
    | succ depth ih => exact fun id => congrArg (· ++ [id]) (List.flatMap_congr fun n _ => ih n)
  exact funext fun id => hwithin _ id

theorem standing_eq
    (hnodup : ((order.toList.filter fun id => !plan.moved.contains id).flatMap plan.block).Nodup) :
    plan.standing order = (order.toList.filter fun id => !plan.moved.contains id).flatMap plan.block := by
  rw [← block_keepAll] at hnodup ⊢
  rw [standing, apply_of_nodup hnodup]
  exact List.filter_eq_self.mpr (by simp)

/-- The nodes in the blocks of those that stay. -/
theorem WellStaged.mem_blocks_iff (h : plan.WellStaged order.toList) {rank : NodeId → Nat}
    (hrank : plan.Ranks rank) {id : NodeId} :
    id ∈ (order.toList.filter fun id => !plan.moved.contains id).flatMap plan.block ↔
      id ∈ order ∨ plan.Scheduled id := by
  have hstay : ∀ {root}, root ∈ (order.toList.filter fun id => !plan.moved.contains id) ↔
      root ∈ order.toList ∧ plan.moved.contains root = false := by
    simp [List.mem_filter]
  rw [List.mem_flatMap]
  constructor
  · rintro ⟨root, hroot, hmem⟩
    rcases (reaches_of_mem_blockWithin hmem).cases_tail with rfl | ⟨anchor, _, hlast⟩
    · exact .inl (Array.mem_toList_iff.mp (hstay.mp hroot).1)
    · exact .inr ⟨anchor, hlast⟩
  · intro hid
    by_cases hscheduled : plan.Scheduled id
    · obtain ⟨root, hroot, hstays, hpath⟩ := h.rooted id hscheduled
      exact ⟨root, hstay.mpr ⟨hroot, hstays⟩, (mem_block_iff hrank).mpr hpath⟩
    · have hstays : plan.moved.contains id = false := by
        rw [Bool.eq_false_iff]
        exact mt (h.placed id) hscheduled
      have hmem := Array.mem_toList_iff.mpr (hid.resolve_right hscheduled)
      exact ⟨id, hstay.mpr ⟨hmem, hstays⟩, (mem_block_iff hrank).mpr .refl⟩

theorem apply_carried (horder : order.toList.Nodup) (h : plan.WellStaged order.toList) :
    plan.Carried order (plan.apply order) := by
  obtain ⟨rank, hrank⟩ := h.exists_ranks
  have hnodup := h.nodup_blocks hrank horder
  have hstanding := standing_eq hnodup
  have happly := apply_of_nodup hnodup
  have hstands : ∀ id, id ∈ order ∨ plan.Scheduled id →
      (plan.insertedBefore id).flatMap plan.block ++ [id] <:+: plan.standing order := by
    intro id hid
    rw [hstanding, ← block_eq hrank]
    obtain ⟨root, hroot, hmem⟩ := List.mem_flatMap.mp ((h.mem_blocks_iff hrank).mpr hid)
    exact (isInfix_of_reaches hrank ((mem_block_iff hrank).mp hmem)).trans
      (List.infix_flatMap_of_mem hroot plan.block)
  constructor
  case nodup => exact apply_nodup plan order
  case mem_iff =>
    intro id
    rw [← Array.mem_toList_iff, happly, List.mem_filter, h.mem_blocks_iff hrank]
    simp
  case removes => rw [happly, hstanding]
  case block => exact block_eq hrank
  case stands => exact hstands
  case ahead =>
    intro id hid
    rw [happly, ← hstanding]
    exact (hstands id hid).filter _
  case keeps =>
    have hself : (order.toList.filter fun id => !plan.moved.contains id).Sublist
        ((order.toList.filter fun id => !plan.moved.contains id).flatMap plan.block) := by
      conv_lhs => rw [← List.flatMap_singleton' (order.toList.filter fun id => !plan.moved.contains id)]
      refine List.Sublist.flatMap_right _ fun id _ => ?_
      rw [block_eq hrank]
      exact List.sublist_append_right _ _
    rw [happly]
    simpa only [List.filter_filter, Bool.and_comm] using hself.filter fun id => !plan.removed.contains id

end Carried

end DirectCall.EditPlan

namespace DirectCall.InsnList

open EditPlan Relation

/-- Staged edits neither lose nor double nor reorder nodes. -/
theorem commit_carried (list : InsnList) (plan : EditPlan) (hlist : list.order.toList.Nodup)
    (hplan : plan.WellStaged list.order.toList) : plan.Carried list.order (list.commit plan).order :=
  apply_carried hlist hplan

/-- Four nodes in place and four without. -/
def eightNodes : InsnList := ⟨Array.replicate 8 .label, #[⟨0⟩, ⟨1⟩, ⟨2⟩, ⟨3⟩]⟩

/-- Three nodes come ahead of node 1, which goes: two new ones and node 3, which moves there. Node 3 and
one of the new ones have a new node ahead of them. -/
def nestedPlan : EditPlan :=
  ((((EditPlan.empty.insertBefore ⟨1⟩ [⟨4⟩, ⟨5⟩]).moveBefore ⟨1⟩ [⟨3⟩]).insertBefore ⟨3⟩
    [⟨6⟩]).insertBefore ⟨5⟩ [⟨7⟩]).removeAll [⟨0⟩, ⟨1⟩]

theorem nestedPlan_insertedBefore (id : NodeId) : nestedPlan.insertedBefore id =
    if id = ⟨5⟩ then [⟨7⟩] else if id = ⟨3⟩ then [⟨6⟩] else
      if id = ⟨1⟩ then [⟨4⟩, ⟨5⟩, ⟨3⟩] else [] := by
  rw [nestedPlan, insertedBefore_removeAll]
  by_cases hfirst : id = ⟨1⟩
  · simp [hfirst, insertedBefore_insertBefore, insertedBefore_moveBefore]
  · simp [hfirst, insertedBefore_insertBefore, insertedBefore_moveBefore]

theorem nestedPlan_moved (id : NodeId) : nestedPlan.moved.contains id = decide (id = ⟨3⟩) := by
  have hmoved := contains_moveBefore (EditPlan.empty.insertBefore ⟨1⟩ [⟨4⟩, ⟨5⟩]) ⟨1⟩ id [⟨3⟩]
  rw [nestedPlan, removeAll_moved]
  simpa [EditPlan.empty, insertBefore] using hmoved

theorem nestedPlan_anchors {anchor id : NodeId} : nestedPlan.Anchors anchor id ↔
    (anchor = ⟨5⟩ ∧ id = ⟨7⟩) ∨ (anchor = ⟨3⟩ ∧ id = ⟨6⟩) ∨
      (anchor = ⟨1⟩ ∧ (id = ⟨4⟩ ∨ id = ⟨5⟩ ∨ id = ⟨3⟩)) := by
  rw [Anchors, nestedPlan_insertedBefore]
  split_ifs <;> simp_all

theorem nestedPlan_composed : nestedPlan.Composed :=
  ((((Composed.empty.insertBefore _ _).moveBefore _ _).insertBefore _ _).insertBefore _ _).removeAll _

theorem nestedPlan_wellStaged : nestedPlan.WellStaged eightNodes.order.toList := by
  have hsite : ∀ id, id = ⟨4⟩ ∨ id = ⟨5⟩ ∨ id = ⟨3⟩ → ReflTransGen nestedPlan.Anchors ⟨1⟩ id := by
    intro id hid
    exact .single (nestedPlan_anchors.mpr (.inr (.inr ⟨rfl, hid⟩)))
  constructor
  case once =>
    intro anchor
    rw [nestedPlan_insertedBefore]
    split_ifs <;> decide
  case alone =>
    intro anchor anchor' id h h'
    rw [nestedPlan_anchors] at h h'
    grind
  case moves =>
    rintro id hid ⟨anchor, h⟩
    rw [nestedPlan_anchors] at h
    rw [nestedPlan_moved]
    simp only [eightNodes, List.mem_cons, List.not_mem_nil, or_false] at hid
    grind
  case placed => exact fun _ => nestedPlan_composed.scheduled
  case rooted =>
    rintro id ⟨anchor, h⟩
    refine ⟨⟨1⟩, by simp [eightNodes], by simp [nestedPlan_moved], ?_⟩
    rcases nestedPlan_anchors.mp h with ⟨rfl, rfl⟩ | ⟨rfl, rfl⟩ | ⟨rfl, hid⟩
    · exact (hsite ⟨5⟩ (by simp)).tail h
    · exact (hsite ⟨3⟩ (by simp)).tail h
    · exact hsite id hid

theorem commit_carried_nested : eightNodes.order.toList.Nodup ∧
    nestedPlan.WellStaged eightNodes.order.toList ∧
    nestedPlan.Carried eightNodes.order (eightNodes.commit nestedPlan).order :=
  ⟨by decide, nestedPlan_wellStaged, commit_carried eightNodes nestedPlan (by decide) nestedPlan_wellStaged⟩

end DirectCall.InsnList
