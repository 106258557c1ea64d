import DirectCall.EditPlan
import Mathlib.Data.Finset.Card
import Mathlib.Data.List.Nodup

/-!
# Carrying a plan out

What `EditPlan.apply` makes of an order. A removed node is never laid out (`mem_apply`), and no node
twice (`apply_nodup`). A node comes with all that is placed ahead of it, as one block: if the blocks of
the nodes that stay have no node in common, they make up the new order (`apply_of_nodup`). So it is the
old one with the scheduled nodes in place and the removed ones left out if nothing moves and no scheduled
node has others ahead of it (`apply_of_direct`). In any case the nodes that are placed ahead of a removed
one stand in its place (`apply_block`).

A node that a plan does not remove is in the new order (`mem_apply_of_not_removed`), provided that
moves are well founded: by some rank, a node stands behind every node that it is placed ahead of.
Then no node waits for itself, and the depth that `place` may go to is enough, as each level is spent
on another anchor.
-/

namespace DirectCall.EditPlan

/-! ## Building a plan -/

theorem contains_foldl_insert (s : Std.HashSet NodeId) (ids : List NodeId) (id : NodeId) :
    (ids.foldl (·.insert ·) s).contains id = (s.contains id || decide (id ∈ ids)) := by
  induction ids generalizing s with
  | nil => simp
  | cons first rest ih =>
    rw [List.foldl_cons, ih]
    simp only [Std.HashSet.contains_insert, List.mem_cons]
    by_cases hfirst : id = first
    · simp [hfirst]
    · have hbeq : (first == id) = false := by simpa using Ne.symm hfirst
      simp [hfirst, hbeq]

theorem removeAll_removed (plan : EditPlan) (ids : List NodeId) :
    (plan.removeAll ids).removed = ids.foldl (·.insert ·) plan.removed := by
  unfold removeAll
  induction ids generalizing plan with
  | nil => rfl
  | cons first rest ih => exact ih (plan.remove first)

theorem contains_removeAll (plan : EditPlan) (ids : List NodeId) (id : NodeId) :
    (plan.removeAll ids).removed.contains id = (plan.removed.contains id || decide (id ∈ ids)) := by
  rw [removeAll_removed, contains_foldl_insert]

theorem contains_remove (plan : EditPlan) (removed id : NodeId) :
    (plan.remove removed).removed.contains id = (plan.removed.contains id || decide (id = removed)) := by
  have := contains_removeAll plan [removed] id
  simpa [removeAll] using this

@[simp] theorem removeAll_before (plan : EditPlan) (ids : List NodeId) :
    (plan.removeAll ids).before = plan.before := by
  unfold removeAll
  induction ids generalizing plan with
  | nil => rfl
  | cons first rest ih => exact ih (plan.remove first)

@[simp] theorem removeAll_moved (plan : EditPlan) (ids : List NodeId) :
    (plan.removeAll ids).moved = plan.moved := by
  unfold removeAll
  induction ids generalizing plan with
  | nil => rfl
  | cons first rest ih => exact ih (plan.remove first)

@[simp] theorem insertedBefore_removeAll (plan : EditPlan) (ids : List NodeId) (anchor : NodeId) :
    (plan.removeAll ids).insertedBefore anchor = plan.insertedBefore anchor := by
  simp [insertedBefore]

@[simp] theorem insertedBefore_remove (plan : EditPlan) (id anchor : NodeId) :
    (plan.remove id).insertedBefore anchor = plan.insertedBefore anchor :=
  rfl

theorem insertedBefore_insertBefore (plan : EditPlan) (anchor id : NodeId) (ids : List NodeId) :
    (plan.insertBefore anchor ids).insertedBefore id =
      if id = anchor then plan.insertedBefore anchor ++ ids else plan.insertedBefore id := by
  simp only [insertedBefore, insertBefore, Std.HashMap.getD_insert]
  by_cases heq : id = anchor
  · simp [heq]
  · have hbeq : (anchor == id) = false := by simpa using Ne.symm heq
    simp [heq, hbeq]

theorem insertedBefore_moveBefore (plan : EditPlan) (anchor id : NodeId) (ids : List NodeId) :
    (plan.moveBefore anchor ids).insertedBefore id =
      if id = anchor then plan.insertedBefore anchor ++ ids else plan.insertedBefore id :=
  insertedBefore_insertBefore _ anchor id ids

theorem contains_moveBefore (plan : EditPlan) (anchor id : NodeId) (ids : List NodeId) :
    (plan.moveBefore anchor ids).moved.contains id = (plan.moved.contains id || decide (id ∈ ids)) :=
  contains_foldl_insert plan.moved ids id

@[simp] theorem insertedBefore_empty (id : NodeId) : empty.insertedBefore id = [] := by
  simp [insertedBefore, empty]

/-- Laying out a node in its place; a moved one has none. -/
def layIn (plan : EditPlan) (layout : Layout) (id : NodeId) : Layout :=
  if plan.moved.contains id then layout else plan.place (plan.before.size + 1) layout id

theorem apply_toList (plan : EditPlan) (order : Array NodeId) :
    (plan.apply order).toList = (order.toList.foldl plan.layIn ⟨#[], ∅⟩).order.toList := by
  rw [apply, ← Array.foldl_toList]
  rfl

/-! ## What is laid out -/

/-- The nodes placed ahead of a node with the property have it as well. -/
def Closed (plan : EditPlan) (P : NodeId → Prop) : Prop :=
  ∀ id, P id → ∀ n ∈ plan.insertedBefore id, P n

/-- In a later layout, only nodes with the property have been met and laid out since, and no removed one
was laid out. -/
structure Layout.Appends (plan : EditPlan) (P : NodeId → Prop) (layout after : Layout) : Prop where
  order : ∃ new, after.order.toList = layout.order.toList ++ new ∧
    ∀ n ∈ new, P n ∧ plan.removed.contains n = false
  met : ∀ n, after.met.contains n = true → layout.met.contains n = true ∨ P n

namespace Layout.Appends

variable {plan : EditPlan} {P : NodeId → Prop} {layout after last : Layout}

theorem refl (plan : EditPlan) (P : NodeId → Prop) (layout : Layout) : layout.Appends plan P layout :=
  ⟨⟨[], by simp, by simp⟩, fun _ h => .inl h⟩

theorem trans (h : layout.Appends plan P after) (h' : after.Appends plan P last) :
    layout.Appends plan P last := by
  obtain ⟨new, hnew, hP⟩ := h.order
  obtain ⟨new', hnew', hP'⟩ := h'.order
  refine ⟨⟨new ++ new', by rw [hnew', hnew, List.append_assoc], fun n hn => ?_⟩, fun n hn => ?_⟩
  · rcases List.mem_append.mp hn with hn | hn
    · exact hP n hn
    · exact hP' n hn
  · rcases h'.met n hn with hn | hn
    · exact h.met n hn
    · exact .inr hn

theorem meet {id : NodeId} (hid : P id) :
    layout.Appends plan P { layout with met := layout.met.insert id } := by
  refine ⟨⟨[], by simp, by simp⟩, fun n hn => ?_⟩
  rw [Std.HashSet.contains_insert, Bool.or_eq_true, beq_iff_eq] at hn
  rcases hn with rfl | hn
  · exact .inr hid
  · exact .inl hn

theorem push {id : NodeId} (hid : P id) (hkept : plan.removed.contains id = false) :
    layout.Appends plan P { layout with order := layout.order.push id } :=
  ⟨⟨[id], by simp, by simpa using ⟨hid, by simpa using hkept⟩⟩, fun _ h => .inl h⟩

theorem foldl {step : Layout → NodeId → Layout} {ids : List NodeId}
    (hstep : ∀ (layout : Layout), ∀ id ∈ ids, layout.Appends plan P (step layout id)) :
    layout.Appends plan P (ids.foldl step layout) := by
  induction ids generalizing layout with
  | nil => exact refl plan P layout
  | cons first rest ih =>
    exact (hstep layout first (by simp)).trans
      (ih fun layout id hid => hstep layout id (List.mem_cons_of_mem _ hid))

end Layout.Appends

section Appends

variable {plan : EditPlan} {P : NodeId → Prop}

theorem place_appends (hclosed : plan.Closed P) (depth : Nat) (layout : Layout) {id : NodeId}
    (hid : P id) : layout.Appends plan P (plan.place depth layout id) := by
  induction depth generalizing layout id with
  | zero => exact .refl plan P layout
  | succ depth ih =>
    have hmeet : layout.Appends plan P { layout with met := layout.met.insert id } := .meet hid
    have hahead := hmeet.trans (.foldl fun layout n hn => ih layout (hclosed id hid n hn))
    unfold place
    split_ifs with hmet hremoved
    · exact .refl plan P layout
    · exact hahead
    · exact hahead.trans (.push hid (Bool.eq_false_iff.mpr hremoved))

theorem layIn_appends (hclosed : plan.Closed P) {ids : List NodeId} (hids : ∀ id ∈ ids, P id)
    (layout : Layout) : layout.Appends plan P (ids.foldl plan.layIn layout) := by
  refine .foldl fun layout id hid => ?_
  unfold layIn
  split_ifs
  · exact .refl plan P layout
  · exact place_appends hclosed _ layout (hids id hid)

/-- A node in the new order was in the old one or was placed ahead of some node, and is not removed. -/
theorem mem_apply {order : Array NodeId} {id : NodeId} (h : id ∈ plan.apply order) :
    (id ∈ order ∨ ∃ anchor, id ∈ plan.insertedBefore anchor) ∧ plan.removed.contains id = false := by
  have hclosed : plan.Closed fun n => n ∈ order ∨ ∃ anchor, n ∈ plan.insertedBefore anchor :=
    fun anchor _ n hn => .inr ⟨anchor, hn⟩
  have hold : ∀ n ∈ order.toList, n ∈ order ∨ ∃ anchor, n ∈ plan.insertedBefore anchor :=
    fun n hn => .inl (by simpa using hn)
  obtain ⟨new, hnew, hlaid⟩ := (layIn_appends hclosed hold ⟨#[], ∅⟩).order
  rw [← Array.mem_toList_iff, apply_toList, hnew] at h
  exact hlaid id (by simpa using h)

/-- A node that is placed ahead of no other one is laid out with the nodes around it: what stood ahead of
another such node is ahead of it still. -/
theorem apply_split {order : Array NodeId} {front back : List NodeId} {first last : NodeId}
    (horder : order.toList = front ++ back) (hlast : last ∉ front) (hfirst : first ∉ back)
    (hfixed : ∀ anchor, first ∉ plan.insertedBefore anchor ∧ last ∉ plan.insertedBefore anchor) :
    ∃ before after, (plan.apply order).toList = before ++ after ∧ last ∉ before ∧ first ∉ after := by
  have hclosed : ∀ fixed : NodeId, (∀ anchor, fixed ∉ plan.insertedBefore anchor) →
      plan.Closed (· ≠ fixed) := by
    rintro fixed hfixed anchor _ n hn rfl
    exact hfixed anchor hn
  have hne : ∀ {fixed : NodeId} {ids : List NodeId}, fixed ∉ ids → ∀ n ∈ ids, n ≠ fixed := by
    rintro fixed ids hfixed n hn rfl
    exact hfixed hn
  rw [apply_toList, horder, List.foldl_append]
  obtain ⟨before, hbefore, hahead⟩ :=
    (layIn_appends (hclosed last fun anchor => (hfixed anchor).2) (hne hlast) ⟨#[], ∅⟩).order
  obtain ⟨after, hafter, hbehind⟩ := (layIn_appends (hclosed first fun anchor => (hfixed anchor).1)
    (hne hfirst) (front.foldl plan.layIn ⟨#[], ∅⟩)).order
  refine ⟨before, after, by rw [hafter, hbefore]; rfl, fun hmem => ?_, fun hmem => ?_⟩
  · exact (hahead last hmem).1 rfl
  · exact (hbehind first hmem).1 rfl

end Appends

/-! ## No node twice -/

/-- Every node laid out was met, and none is laid out twice. -/
structure Layout.Tidy (layout : Layout) : Prop where
  nodup : layout.order.toList.Nodup
  met : ∀ n ∈ layout.order, layout.met.contains n = true

/-- A later layout that is tidy as well; what was met before is not laid out since. -/
structure Layout.Extends (layout after : Layout) : Prop where
  tidy : after.Tidy
  met : ∀ n, layout.met.contains n = true → after.met.contains n = true
  old : ∀ n ∈ after.order, layout.met.contains n = true → n ∈ layout.order

theorem Layout.Tidy.extends_self {layout : Layout} (h : layout.Tidy) : layout.Extends layout :=
  ⟨h, fun _ hn => hn, fun _ hn _ => hn⟩

theorem Layout.Extends.trans {layout after last : Layout} (h : layout.Extends after)
    (h' : after.Extends last) : layout.Extends last :=
  ⟨h'.tidy, fun n hn => h'.met n (h.met n hn),
    fun n hn hmet => h.old n (h'.old n hn (h.met n hmet)) hmet⟩

theorem foldl_extends {step : Layout → NodeId → Layout}
    (hstep : ∀ (layout : Layout) (id : NodeId), layout.Tidy → layout.Extends (step layout id)) (ids : List NodeId)
    {layout : Layout} (h : layout.Tidy) : layout.Extends (ids.foldl step layout) := by
  induction ids generalizing layout with
  | nil => exact h.extends_self
  | cons first rest ih =>
    have hfirst := hstep layout first h
    exact hfirst.trans (ih hfirst.tidy)

theorem place_extends (plan : EditPlan) (depth : Nat) (layout : Layout) (id : NodeId)
    (h : layout.Tidy) : layout.Extends (plan.place depth layout id) := by
  induction depth generalizing layout id with
  | zero => exact h.extends_self
  | succ depth ih =>
    have hmeet : ({ layout with met := layout.met.insert id } : Layout).Tidy :=
      ⟨h.nodup, fun n hn => by simp [h.met n hn]⟩
    have hahead := foldl_extends ih (plan.insertedBefore id) hmeet
    have hbefore : ∀ n, layout.met.contains n = true →
        (layout.met.insert id).contains n = true := by
      intro n hn
      simp [hn]
    unfold place
    split_ifs with hseen hremoved
    · exact h.extends_self
    · exact ⟨hahead.tidy, fun n hn => hahead.met n (hbefore n hn),
        fun n hn hmet => hahead.old n hn (hbefore n hmet)⟩
    · -- The node itself was met on the way, so that nothing ahead of it laid it out.
      have hnew : id ∉ ((plan.insertedBefore id).foldl (plan.place depth)
          { layout with met := layout.met.insert id }).order := by
        intro hid
        exact hseen (h.met id (hahead.old id hid (by simp)))
      refine ⟨⟨?_, fun n hn => ?_⟩, fun n hn => hahead.met n (hbefore n hn), fun n hn hmet => ?_⟩
      · rw [Array.toList_push, ← List.concat_eq_append]
        exact hahead.tidy.nodup.concat (by simpa using hnew)
      · rcases Array.mem_push.mp hn with hn | rfl
        · exact hahead.tidy.met n hn
        · exact hahead.met n (by simp)
      · rcases Array.mem_push.mp hn with hn | rfl
        · exact hahead.old n hn (hbefore n hmet)
        · exact absurd hmet hseen

/-- No node is laid out twice, whatever the order and the plan say. -/
theorem apply_nodup (plan : EditPlan) (order : Array NodeId) : (plan.apply order).toList.Nodup := by
  have hstart : (⟨#[], ∅⟩ : Layout).Tidy := ⟨by simp, by simp⟩
  rw [apply_toList]
  refine (foldl_extends (fun layout id h => ?_) order.toList hstart).tidy.nodup
  unfold layIn
  split_ifs
  · exact h.extends_self
  · exact place_extends plan _ layout id h

/-! ## Nodes with all that is placed ahead of them -/

/-- What is laid out of a node that was not met, nor anything ahead of it, within a depth. -/
def blockWithin (plan : EditPlan) : Nat → NodeId → List NodeId
  | 0, _ => []
  | depth + 1, id => (plan.insertedBefore id).flatMap (plan.blockWithin depth) ++ [id]

/-- A node behind the nodes placed ahead of it, each of them behind those placed ahead of it in turn. -/
def block (plan : EditPlan) (id : NodeId) : List NodeId := plan.blockWithin (plan.before.size + 1) id

/-- In a later layout, exactly these nodes have been met since, and the kept ones of them laid out in
order. -/
structure Lays (plan : EditPlan) (layout after : Layout) (ids : List NodeId) : Prop where
  order : after.order.toList =
    layout.order.toList ++ ids.filter fun n => !plan.removed.contains n
  met : ∀ n, after.met.contains n = true ↔ layout.met.contains n = true ∨ n ∈ ids

section Lays

variable {plan : EditPlan} {layout after last : Layout} {id : NodeId} {ids more : List NodeId}

theorem Lays.refl (plan : EditPlan) (layout : Layout) : plan.Lays layout layout [] :=
  ⟨by simp, by simp⟩

theorem Lays.trans (h : plan.Lays layout after ids) (h' : plan.Lays after last more) :
    plan.Lays layout last (ids ++ more) := by
  refine ⟨by rw [h'.order, h.order, List.filter_append, List.append_assoc], fun n => ?_⟩
  rw [h'.met, h.met, List.mem_append, or_assoc]

/-- A node that was met is laid out behind those ahead of it, unless it is removed. -/
theorem Lays.settle (h : plan.Lays { layout with met := layout.met.insert id } after ids) :
    plan.Lays layout (if plan.removed.contains id then after
      else { after with order := after.order.push id }) (ids ++ [id]) := by
  have hmet : ∀ n, after.met.contains n = true ↔ layout.met.contains n = true ∨ n ∈ ids ++ [id] := by
    intro n
    rw [h.met, Std.HashSet.contains_insert, Bool.or_eq_true, beq_iff_eq, List.mem_append,
      List.mem_singleton, eq_comm]
    tauto
  split_ifs with hremoved
  · exact ⟨by simp [h.order, hremoved], hmet⟩
  · exact ⟨by simp [h.order, hremoved], hmet⟩

/-- Steps that each lay out a block lay out one block behind the other, if no two have a node in common. -/
theorem foldl_lays {step : Layout → NodeId → Layout} {blocks : NodeId → List NodeId}
    (hstep : ∀ (layout : Layout) (id : NodeId), (blocks id).Nodup →
      (∀ n ∈ blocks id, layout.met.contains n = false) → plan.Lays layout (step layout id) (blocks id))
    (hnodup : (ids.flatMap blocks).Nodup)
    (hmet : ∀ n ∈ ids.flatMap blocks, layout.met.contains n = false) :
    plan.Lays layout (ids.foldl step layout) (ids.flatMap blocks) := by
  induction ids generalizing layout with
  | nil => exact .refl plan layout
  | cons first rest ih =>
    rw [List.flatMap_cons] at hnodup hmet ⊢
    obtain ⟨hfirst, hrest, hout⟩ := List.nodup_append.mp hnodup
    have hlays := hstep layout first hfirst fun n hn => hmet n (List.mem_append_left _ hn)
    refine hlays.trans (ih hrest fun n hn => ?_)
    rw [Bool.eq_false_iff, ne_eq, hlays.met, not_or]
    exact ⟨by simp [hmet n (List.mem_append_right _ hn)], fun hmem => hout n hmem n hn rfl⟩

/-- A node is laid out behind the blocks of the nodes that are placed ahead of it. -/
theorem place_lays {depth : Nat} (hnodup : (plan.blockWithin depth id).Nodup)
    (hmet : ∀ n ∈ plan.blockWithin depth id, layout.met.contains n = false) :
    plan.Lays layout (plan.place depth layout id) (plan.blockWithin depth id) := by
  induction depth generalizing layout id with
  | zero => exact .refl plan layout
  | succ depth ih =>
    obtain ⟨hblocks, _, hout⟩ := List.nodup_append.mp hnodup
    have hahead : plan.Lays { layout with met := layout.met.insert id }
        ((plan.insertedBefore id).foldl (plan.place depth)
          { layout with met := layout.met.insert id })
        ((plan.insertedBefore id).flatMap (plan.blockWithin depth)) := by
      refine foldl_lays (fun layout n => ih) hblocks fun n hn => ?_
      have hne : id ≠ n := Ne.symm (hout n hn id (by simp))
      simp [hne, hmet n (List.mem_append_left _ hn)]
    have hid : layout.met.contains id = false := hmet id (List.mem_append_right _ (by simp))
    rw [place]
    simp only [hid, Bool.false_eq_true, if_false]
    exact hahead.settle

theorem foldl_layIn (plan : EditPlan) (ids : List NodeId) (layout : Layout) :
    ids.foldl plan.layIn layout = (ids.filter fun id => !plan.moved.contains id).foldl
      (plan.place (plan.before.size + 1)) layout := by
  rw [List.foldl_filter]
  congr 1
  funext layout id
  rw [layIn]
  cases plan.moved.contains id with
  | false => rfl
  | true => rfl

/-- If the blocks of the nodes that stay have no node twice, the new order is one block after the other,
with the removed nodes left out. -/
theorem apply_of_nodup {order : Array NodeId}
    (hnodup : ((order.toList.filter fun id => !plan.moved.contains id).flatMap plan.block).Nodup) :
    (plan.apply order).toList =
      ((order.toList.filter fun id => !plan.moved.contains id).flatMap plan.block).filter
        fun n => !plan.removed.contains n := by
  have hlays : plan.Lays ⟨#[], ∅⟩ ((order.toList.filter fun id => !plan.moved.contains id).foldl
      (plan.place (plan.before.size + 1)) ⟨#[], ∅⟩)
      ((order.toList.filter fun id => !plan.moved.contains id).flatMap plan.block) :=
    foldl_lays (fun layout n => place_lays) hnodup (by simp)
  rw [apply_toList, foldl_layIn]
  simpa using hlays.order

/-! ## Nodes without others ahead of the ones ahead of them -/

theorem before_size_pos (h : plan.insertedBefore id ≠ []) : 0 < plan.before.size := by
  by_contra hsize
  have hempty : plan.before.isEmpty = true := by
    rw [Std.HashMap.isEmpty_eq_size_eq_zero, beq_iff_eq]
    omega
  exact h (Std.HashMap.getD_of_isEmpty hempty)

theorem block_of_leaves (hleaf : ∀ n ∈ plan.insertedBefore id, plan.insertedBefore n = []) :
    plan.block id = plan.insertedBefore id ++ [id] := by
  have hahead : (plan.insertedBefore id).flatMap (plan.blockWithin plan.before.size) =
      plan.insertedBefore id := by
    by_cases hnone : plan.insertedBefore id = []
    · rw [hnone]
      rfl
    · obtain ⟨depth, hdepth⟩ : ∃ depth, plan.before.size = depth + 1 :=
        ⟨plan.before.size - 1, by have := before_size_pos hnone; omega⟩
      have hsingle : ∀ n ∈ plan.insertedBefore id, plan.blockWithin plan.before.size n = [n] := by
        intro n hn
        rw [hdepth, blockWithin, hleaf n hn]
        rfl
      rw [List.flatMap_congr hsingle, List.flatMap_singleton']
  rw [block, blockWithin, hahead]

/-- If nothing moves and scheduled nodes have nothing ahead of them, the new order is the old one with
the scheduled nodes in place and the removed ones left out. -/
theorem apply_of_direct {order : Array NodeId} (hmoved : ∀ id, plan.moved.contains id = false)
    (hnodup : (order.toList.flatMap fun id => plan.insertedBefore id ++ [id]).Nodup)
    (hleaf : ∀ id ∈ order.toList, ∀ n ∈ plan.insertedBefore id, plan.insertedBefore n = []) :
    (plan.apply order).toList = (order.toList.flatMap fun id => plan.insertedBefore id ++ [id]).filter
      fun n => !plan.removed.contains n := by
  have hstay : (order.toList.filter fun id => !plan.moved.contains id) = order.toList := by
    rw [List.filter_eq_self]
    intro id _
    rw [hmoved]
    rfl
  have hblocks : (order.toList.filter fun id => !plan.moved.contains id).flatMap plan.block =
      order.toList.flatMap fun id => plan.insertedBefore id ++ [id] := by
    rw [hstay]
    exact List.flatMap_congr fun id hid => block_of_leaves (hleaf id hid)
  rw [apply_of_nodup (hblocks ▸ hnodup), hblocks]

/-- The nodes placed ahead of a removed node stand in its place. What stood before the node, with all
that is placed ahead of it, comes before them, and the rest behind. -/
theorem apply_block {order : Array NodeId} {ahead behind : List NodeId} {site : NodeId}
    {P Q : NodeId → Prop} (horder : order.toList = ahead ++ site :: behind)
    (hremoved : plan.removed.contains site = true) (hstays : plan.moved.contains site = false)
    (hP : plan.Closed P) (hQ : plan.Closed Q) (hahead : ∀ n ∈ ahead, P n) (hbehind : ∀ n ∈ behind, Q n)
    (hnodup : (plan.insertedBefore site ++ [site]).Nodup)
    (hblock : ∀ n ∈ plan.insertedBefore site ++ [site], ¬ P n)
    (hleaf : ∀ n ∈ plan.insertedBefore site,
      plan.insertedBefore n = [] ∧ plan.removed.contains n = false) :
    ∃ before after, (plan.apply order).toList = before ++ plan.insertedBefore site ++ after ∧
      (∀ n ∈ before, P n) ∧ ∀ n ∈ after, Q n := by
  have hfirst := layIn_appends hP hahead ⟨#[], ∅⟩
  rw [apply_toList, horder, List.foldl_append, List.foldl_cons]
  generalize ahead.foldl plan.layIn ⟨#[], ∅⟩ = layout at hfirst
  have hmet : ∀ n ∈ plan.insertedBefore site ++ [site], layout.met.contains n = false := by
    intro n hn
    rw [Bool.eq_false_iff]
    intro hmet
    rcases hfirst.met n hmet with hstart | hP
    · simp at hstart
    · exact hblock n hn hP
  have hself : plan.block site = plan.insertedBefore site ++ [site] :=
    block_of_leaves fun n hn => (hleaf n hn).1
  have hplaced : (plan.layIn layout site).order.toList =
      layout.order.toList ++ plan.insertedBefore site := by
    rw [← hself] at hnodup hmet
    rw [layIn, hstays, if_neg Bool.false_ne_true, (place_lays hnodup hmet).order]
    change layout.order.toList ++ (plan.block site).filter _ = _
    rw [hself, List.filter_append,
      List.filter_eq_self.mpr fun n hn => by simp [(hleaf n hn).2]]
    simp [hremoved]
  obtain ⟨before, hbefore, hPbefore⟩ := hfirst.order
  obtain ⟨after, hafter, hQafter⟩ := (layIn_appends hQ hbehind (plan.layIn layout site)).order
  refine ⟨before, after, ?_, fun n hn => (hPbefore n hn).1, fun n hn => (hQafter n hn).1⟩
  rw [hafter, hplaced, hbefore]
  simp

end Lays

/-! ## Nothing gets lost -/

variable {plan : EditPlan} {rank : NodeId → Nat}

/-- Nodes that others are placed ahead of, and that do not rank below `r`. -/
def anchors (plan : EditPlan) (rank : NodeId → Nat) (r : Nat) : Finset NodeId :=
  plan.before.keys.toFinset.filter fun id => r ≤ rank id

theorem card_anchors_le (plan : EditPlan) (rank : NodeId → Nat) (r : Nat) :
    (plan.anchors rank r).card ≤ plan.before.size := by
  calc (plan.anchors rank r).card ≤ plan.before.keys.toFinset.card := Finset.card_filter_le _ _
    _ ≤ plan.before.keys.length := List.toFinset_card_le _
    _ = plan.before.size := Std.HashMap.length_keys

theorem mem_keys_of_insertedBefore {anchor id : NodeId} (h : id ∈ plan.insertedBefore anchor) :
    anchor ∈ plan.before.keys := by
  rw [Std.HashMap.mem_keys]
  by_contra hnone
  rw [insertedBefore, Std.HashMap.getD_eq_fallback hnone] at h
  simp at h

/-- Fewer anchors are left for a node that is placed ahead of another. -/
theorem card_anchors_lt (hrank : ∀ anchor, ∀ id ∈ plan.insertedBefore anchor, rank anchor < rank id)
    {anchor id : NodeId} (h : id ∈ plan.insertedBefore anchor) :
    (plan.anchors rank (rank id)).card < (plan.anchors rank (rank anchor)).card := by
  have hlt := hrank anchor id h
  refine Finset.card_lt_card ⟨fun n hn => ?_, fun hsub => ?_⟩
  · rw [anchors, Finset.mem_filter] at hn ⊢
    exact ⟨hn.1, by omega⟩
  · have hmem : anchor ∈ plan.anchors rank (rank anchor) := by
      rw [anchors, Finset.mem_filter, List.mem_toFinset]
      exact ⟨mem_keys_of_insertedBefore h, le_rfl⟩
    have := (Finset.mem_filter.mp (hsub hmem)).2
    omega

/-- But for the pending nodes, a node that was met is laid out or removed, and all nodes placed ahead
of it were met. -/
structure Complete (plan : EditPlan) (layout : Layout) (pending : List NodeId) : Prop where
  laid : ∀ n, layout.met.contains n = true → n ∉ pending → plan.removed.contains n = false →
    n ∈ layout.order
  ahead : ∀ n, layout.met.contains n = true → n ∉ pending →
    ∀ m ∈ plan.insertedBefore n, layout.met.contains m = true

/-- A later layout that is complete as well. -/
structure Completes (plan : EditPlan) (layout after : Layout) (pending : List NodeId) : Prop where
  complete : plan.Complete after pending
  met : ∀ n, layout.met.contains n = true → after.met.contains n = true

theorem Completes.trans {layout after last : Layout} {pending : List NodeId}
    (h : plan.Completes layout after pending) (h' : plan.Completes after last pending) :
    plan.Completes layout last pending :=
  ⟨h'.complete, fun n hn => h'.met n (h.met n hn)⟩

theorem Complete.meet {layout : Layout} {pending : List NodeId} (h : plan.Complete layout pending)
    (id : NodeId) :
    plan.Completes layout { layout with met := layout.met.insert id } (id :: pending) := by
  have hmet : ∀ n, n ∉ id :: pending → (layout.met.insert id).contains n = true →
      layout.met.contains n = true ∧ n ∉ pending := by
    intro n hn hmet
    rw [List.mem_cons, not_or] at hn
    rw [Std.HashSet.contains_insert, Bool.or_eq_true, beq_iff_eq] at hmet
    exact ⟨hmet.resolve_left (Ne.symm hn.1), hn.2⟩
  refine ⟨⟨fun n hn hpending hremoved => ?_, fun n hn hpending m hm => ?_⟩, fun n hn => ?_⟩
  · obtain ⟨hn, hpending⟩ := hmet n hpending hn
    exact h.laid n hn hpending hremoved
  · obtain ⟨hn, hpending⟩ := hmet n hpending hn
    simp [h.ahead n hn hpending m hm]
  · simp [hn]

/-- Once all nodes ahead of a pending node were met, it can be laid out. -/
theorem Complete.settle {layout : Layout} {pending : List NodeId} {id : NodeId}
    (h : plan.Complete layout (id :: pending))
    (hahead : ∀ m ∈ plan.insertedBefore id, layout.met.contains m = true) :
    plan.Complete (if plan.removed.contains id then layout
      else { layout with order := layout.order.push id }) pending := by
  have hpending : ∀ n, n ≠ id → n ∉ pending → n ∉ id :: pending := by
    intro n hne hn
    simp [hne, hn]
  split_ifs with hremoved
  · refine ⟨fun n hn hnp hkept => ?_, fun n hn hnp => ?_⟩
    · have hne : n ≠ id := by
        rintro rfl
        simp [hremoved] at hkept
      exact h.laid n hn (hpending n hne hnp) hkept
    · by_cases heq : n = id
      · exact heq ▸ hahead
      · exact h.ahead n hn (hpending n heq hnp)
  · refine ⟨fun n hn hnp hkept => ?_, fun n hn hnp => ?_⟩
    · by_cases heq : n = id
      · simp [heq]
      · exact Array.mem_push_of_mem _ (h.laid n hn (hpending n heq hnp) hkept)
    · by_cases heq : n = id
      · exact heq ▸ hahead
      · exact h.ahead n hn (hpending n heq hnp)

theorem foldl_completes {step : Layout → NodeId → Layout} {pending ids : List NodeId}
    (hstep : ∀ layout, ∀ id ∈ ids, plan.Complete layout pending →
      plan.Completes layout (step layout id) pending ∧ (step layout id).met.contains id = true)
    {layout : Layout} (h : plan.Complete layout pending) :
    plan.Completes layout (ids.foldl step layout) pending ∧
      ∀ id ∈ ids, (ids.foldl step layout).met.contains id = true := by
  induction ids generalizing layout with
  | nil => exact ⟨⟨h, fun _ hn => hn⟩, by simp⟩
  | cons first rest ih =>
    obtain ⟨hfirst, hmet⟩ := hstep layout first (by simp) h
    obtain ⟨hrest, hmets⟩ :=
      ih (fun layout id hid => hstep layout id (List.mem_cons_of_mem _ hid)) hfirst.complete
    refine ⟨hfirst.trans hrest, fun id hid => ?_⟩
    rcases List.mem_cons.mp hid with rfl | hid
    · exact hrest.met _ hmet
    · exact hmets id hid

/-- With depth for all anchors that do not rank below it, a node is laid out, and so is everything that
is placed ahead of it. -/
theorem place_completes
    (hrank : ∀ anchor, ∀ id ∈ plan.insertedBefore anchor, rank anchor < rank id) {depth : Nat}
    {layout : Layout} {pending : List NodeId} (h : plan.Complete layout pending) {id : NodeId}
    (hdepth : (plan.anchors rank (rank id)).card < depth) :
    plan.Completes layout (plan.place depth layout id) pending ∧
      (plan.place depth layout id).met.contains id = true := by
  induction depth generalizing layout pending id with
  | zero => omega
  | succ depth ih =>
    by_cases hmet : layout.met.contains id = true
    · rw [place, if_pos hmet]
      exact ⟨⟨h, fun _ hn => hn⟩, hmet⟩
    · have hmeet := h.meet id
      obtain ⟨hfold, hmets⟩ := foldl_completes (fun layout m hm hlayout =>
        ih hlayout (Nat.lt_of_lt_of_le (card_anchors_lt hrank hm) (Nat.le_of_lt_succ hdepth)))
        hmeet.complete
      have hafter := hmeet.trans hfold
      have hsettled := hfold.complete.settle hmets
      have hid := hfold.met id (by simp)
      rw [place, if_neg hmet]
      dsimp only
      split_ifs at hsettled ⊢
      · exact ⟨⟨hsettled, hafter.met⟩, hid⟩
      · exact ⟨⟨hsettled, hafter.met⟩, hid⟩

/-- Everything in the order is met, the moved nodes apart. -/
theorem layIn_completes
    (hrank : ∀ anchor, ∀ id ∈ plan.insertedBefore anchor, rank anchor < rank id)
    {layout : Layout} (h : plan.Complete layout []) (ids : List NodeId) :
    plan.Completes layout (ids.foldl plan.layIn layout) [] ∧
      ∀ id ∈ ids, plan.moved.contains id = false →
        (ids.foldl plan.layIn layout).met.contains id = true := by
  induction ids generalizing layout with
  | nil => exact ⟨⟨h, fun _ hn => hn⟩, by simp⟩
  | cons first rest ih =>
    have hfirst : plan.Completes layout (plan.layIn layout first) [] ∧
        (plan.moved.contains first = false → (plan.layIn layout first).met.contains first = true) := by
      unfold layIn
      split_ifs with hmoved
      · exact ⟨⟨h, fun _ hn => hn⟩, fun hstays => by simp [hmoved] at hstays⟩
      · have hdepth := Nat.lt_succ_of_le (card_anchors_le plan rank (rank first))
        obtain ⟨hplace, hmet⟩ := place_completes hrank h hdepth
        exact ⟨hplace, fun _ => hmet⟩
    obtain ⟨hrest, hmets⟩ := ih hfirst.1.complete
    refine ⟨hfirst.1.trans hrest, fun id hid hstays => ?_⟩
    rcases List.mem_cons.mp hid with rfl | hid
    · exact hrest.met _ (hfirst.2 hstays)
    · exact hmets id hid hstays

/-- A node of the order that is not removed is in the new order: it stays, or it moved ahead of
another one. -/
theorem mem_apply_of_not_removed {order : Array NodeId}
    (hrank : ∀ anchor, ∀ id ∈ plan.insertedBefore anchor, rank anchor < rank id)
    (hmoved : ∀ id, plan.moved.contains id = true → ∃ anchor ∈ order, id ∈ plan.insertedBefore anchor)
    {id : NodeId} (hid : id ∈ order) (hremoved : plan.removed.contains id = false) :
    id ∈ plan.apply order := by
  have hstart : plan.Complete ⟨#[], ∅⟩ [] := ⟨by simp, by simp⟩
  obtain ⟨hall, hmets⟩ := layIn_completes hrank hstart order.toList
  -- A moved node is met with its anchor, which ranks below it.
  have hmet : ∀ r, ∀ n ∈ order, rank n = r →
      (order.toList.foldl plan.layIn ⟨#[], ∅⟩).met.contains n = true := by
    intro r
    induction r using Nat.strongRecOn with
    | _ r ih =>
      intro n hn hr
      by_cases hstay : plan.moved.contains n = true
      · obtain ⟨anchor, hanchor, hahead⟩ := hmoved n hstay
        exact hall.complete.ahead anchor
          (ih (rank anchor) (hr ▸ hrank anchor n hahead) anchor hanchor rfl) (by simp) n hahead
      · exact hmets n (by simpa using hn) (by simpa using hstay)
  rw [← Array.mem_toList_iff, apply_toList, Array.mem_toList_iff]
  exact hall.complete.laid id (hmet _ id hid rfl) (by simp) hremoved

end DirectCall.EditPlan
