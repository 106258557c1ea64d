import DirectCall.Proofs.CallSite.Planning
import DirectCall.Proofs.InsnList.Proper
import Mathlib.Data.List.Induction
import Mathlib.Data.List.Pairwise

/-!
# What recording edits gives

To record an edit makes nodes for its instructions and places them, after what was placed there before.
All nodes are numbered one after another, so which node stands for which instruction, and where it was
placed, can be read off the edits (`recording_foldl`).

Where a single call is replaced and no code moves, the new nodes stand where the call stood, the code that it
used up is gone, and everything else keeps its order (`Recording.commit_of_single`).
-/

namespace DirectCall

namespace SiteEdit

/-- The store behind moved code. -/
def stores (e : SiteEdit) : List Insn := (e.move.map fun move => move.2.2).toList

/-- Nodes that leave their place. -/
def movedIds (e : SiteEdit) : List NodeId := (e.move.map fun move => move.2.1).getD []

/-- All instructions that nodes are made for. -/
def made (e : SiteEdit) : List Insn := e.stores ++ e.atSite

end SiteEdit

/-- An edit, and the number of the first node that is made for it. -/
structure Draft where
  edit : SiteEdit
  start : Nat

namespace Draft

/-- Nodes for the store behind moved code. -/
def stores (d : Draft) : List NodeId := NodeId.numbered d.start d.edit.stores.length

/-- Nodes for the code at the call. -/
def block (d : Draft) : List NodeId :=
  NodeId.numbered (d.start + d.edit.stores.length) d.edit.atSite.length

/-- What is placed ahead of a node. -/
def placed (d : Draft) (anchor : NodeId) : List NodeId :=
  (match d.edit.move with
    | some (target, ids, _) => if anchor = target then ids ++ d.stores else []
    | none => []) ++ if anchor = d.edit.site then d.block else []

/-- The drafts of edits that are recorded one after another. -/
def ofEdits (start : Nat) : List SiteEdit → List Draft
  | [] => []
  | e :: rest => ⟨e, start⟩ :: ofEdits (start + e.made.length) rest

theorem mem_placed {d : Draft} {anchor id : NodeId} :
    id ∈ d.placed anchor ↔
      (∃ ids store, d.edit.move = some (anchor, ids, store) ∧ (id ∈ ids ∨ id ∈ d.stores)) ∨
        anchor = d.edit.site ∧ id ∈ d.block := by
  rw [placed, List.mem_append]
  refine or_congr ?_ ?_
  · cases hmove : d.edit.move with
    | none => simp
    | some move =>
      obtain ⟨target, ids, store⟩ := move
      by_cases htarget : anchor = target
      · simp [htarget, List.mem_append]
      · simp [htarget, Ne.symm htarget]
  · split_ifs with hsite <;> simp [hsite]

/-- A draft places nothing ahead of a node that it neither replaces nor moves code to. -/
theorem placed_eq_nil {d : Draft} {anchor : NodeId} (hsite : anchor ≠ d.edit.site)
    (hmove : ∀ target ids store, d.edit.move = some (target, ids, store) → anchor ≠ target) :
    d.placed anchor = [] := by
  rw [List.eq_nil_iff_forall_not_mem]
  intro id hid
  rcases mem_placed.mp hid with ⟨ids, store, htarget, _⟩ | ⟨heq, _⟩
  · exact hmove anchor ids store htarget rfl
  · exact hsite heq

theorem placed_site {d : Draft} (hmove : ∀ target ids store, d.edit.move = some (target, ids, store) →
    d.edit.site ≠ target) : d.placed d.edit.site = d.block := by
  rw [placed, if_pos rfl]
  cases hd : d.edit.move with
  | none => rfl
  | some move =>
    obtain ⟨target, ids, store⟩ := move
    simp [hmove target ids store hd]

/-! ## Drafts in a row -/

theorem ofEdits_append (start : Nat) (edits more : List SiteEdit) :
    ofEdits start (edits ++ more) =
      ofEdits start edits ++ ofEdits (start + (edits.flatMap (·.made)).length) more := by
  induction edits generalizing start with
  | nil => rfl
  | cons e rest ih => simp [ofEdits, ih, Nat.add_assoc]

theorem map_edit_ofEdits (start : Nat) (edits : List SiteEdit) :
    (ofEdits start edits).map (·.edit) = edits := by
  induction edits generalizing start with
  | nil => rfl
  | cons e rest ih => simp [ofEdits, ih]

/-- The nodes of all drafts are numbered one after another. -/
theorem ids_ofEdits (start : Nat) (edits : List SiteEdit) :
    (ofEdits start edits).flatMap (fun d => d.stores ++ d.block) =
      NodeId.numbered start (edits.flatMap (·.made)).length := by
  induction edits generalizing start with
  | nil => rfl
  | cons e rest ih =>
    rw [ofEdits, List.flatMap_cons, ih, List.flatMap_cons, List.length_append]
    simp only [stores, block, NodeId.numbered_append, SiteEdit.made, List.length_append]

/-- Where the instructions of a draft are among all of them. -/
theorem made_ofEdits {start : Nat} {edits : List SiteEdit} {d : Draft} (h : d ∈ ofEdits start edits) :
    ∃ before after, edits.flatMap (·.made) = before ++ (d.edit.made ++ after) ∧
      d.start = start + before.length := by
  induction edits generalizing start with
  | nil => simp [ofEdits] at h
  | cons e rest ih =>
    rcases List.mem_cons.mp h with rfl | h
    · exact ⟨[], rest.flatMap (·.made), by simp, by simp⟩
    · obtain ⟨before, after, hmade, hstart⟩ := ih h
      refine ⟨e.made ++ before, after, by simp [hmade], ?_⟩
      rw [hstart, List.length_append, Nat.add_assoc]

/-- A node is made for one draft only, and for its block or for the store. -/
theorem eq_of_mem_ids {start : Nat} {edits : List SiteEdit} {d d' : Draft}
    (h : d ∈ ofEdits start edits) (h' : d' ∈ ofEdits start edits) {id : NodeId}
    (hid : id ∈ d.block) (hid' : id ∈ d'.stores ++ d'.block) : d' = d ∧ id ∉ d'.stores := by
  have hnodup := NodeId.nodup_numbered start (edits.flatMap (·.made)).length
  rw [← ids_ofEdits, List.nodup_flatMap] at hnodup
  have heq : d' = d := by
    by_contra hne
    have : Std.Symm (Function.onFun List.Disjoint fun d : Draft => d.stores ++ d.block) :=
      ⟨fun _ _ hdisjoint => List.disjoint_symm hdisjoint⟩
    exact hnodup.2.forall h' h hne hid' (List.mem_append_right _ hid)
  subst heq
  exact ⟨rfl, fun hstore => (List.nodup_append.mp (hnodup.1 _ h)).2.2 _ hstore _ hid rfl⟩

end Draft

/-! ## Recording -/

namespace SiteEdit

variable (now : InsnList) (plan : EditPlan) (e : SiteEdit)

theorem record_list :
    (record (now, plan) e).1 = ⟨now.nodes ++ e.made.toArray, now.order⟩ := by
  unfold record
  cases hmove : e.move with
  | none => simp [InsnList.createAll_eq, made, stores, hmove]
  | some move => simp [InsnList.createAll_eq, InsnList.create, made, stores, hmove]

theorem record_placed (anchor : NodeId) :
    (record (now, plan) e).2.insertedBefore anchor =
      plan.insertedBefore anchor ++ (Draft.mk e now.nodes.size).placed anchor := by
  unfold record Draft.placed
  cases hmove : e.move with
  | none =>
    simp only [InsnList.createAll_eq, EditPlan.insertedBefore_removeAll, EditPlan.insertedBefore_remove,
      EditPlan.insertedBefore_insertBefore, Draft.block, stores, hmove, Option.map_none,
      Option.toList_none, List.length_nil, Nat.add_zero, List.nil_append]
    split_ifs with hsite
    · rw [hsite]
      rfl
    · rw [List.append_nil]
  | some move =>
    obtain ⟨target, ids, store⟩ := move
    have hblock : InsnList.freshIds ⟨now.nodes.push store, now.order⟩ e.atSite.length =
        (Draft.mk e now.nodes.size).block := by
      simp [InsnList.freshIds_eq, Draft.block, stores, hmove]
    have hstores : (Draft.mk e now.nodes.size).stores = [⟨now.nodes.size⟩] := by
      simp [Draft.stores, NodeId.numbered, stores, hmove]
    have hplaced : ∀ id, ((plan.moveBefore target ids).insertBefore target
        [⟨now.nodes.size⟩]).insertedBefore id = plan.insertedBefore id ++
          if id = target then ids ++ [⟨now.nodes.size⟩] else [] := by
      intro id
      rw [EditPlan.insertedBefore_insertBefore, EditPlan.insertedBefore_moveBefore,
        EditPlan.insertedBefore_moveBefore, if_pos rfl]
      by_cases heq : id = target
      · simp [heq]
      · simp [heq]
    simp only [InsnList.createAll_eq, InsnList.create, EditPlan.insertedBefore_removeAll,
      EditPlan.insertedBefore_remove, EditPlan.insertedBefore_insertBefore _ e.site, hblock, hstores,
      hplaced]
    split_ifs with hsite <;> simp_all

theorem record_removed (id : NodeId) :
    (record (now, plan) e).2.removed.contains id = true ↔
      plan.removed.contains id = true ∨ id = e.site ∨ id ∈ e.remove := by
  unfold record
  cases hmove : e.move with
  | none =>
    simp [EditPlan.contains_removeAll, EditPlan.contains_remove, EditPlan.insertBefore, or_assoc]
  | some move =>
    simp [EditPlan.contains_removeAll, EditPlan.contains_remove, EditPlan.insertBefore,
      EditPlan.moveBefore, or_assoc]

theorem record_moved (id : NodeId) :
    (record (now, plan) e).2.moved.contains id = true ↔
      plan.moved.contains id = true ∨ id ∈ e.movedIds := by
  unfold record movedIds
  cases hmove : e.move with
  | none => simp [EditPlan.remove, EditPlan.insertBefore]
  | some move =>
    have hmoved := EditPlan.contains_foldl_insert plan.moved move.2.1 id
    simp [EditPlan.remove, EditPlan.insertBefore, EditPlan.moveBefore, hmoved]

end SiteEdit

/-- What a list and a plan are once edits were recorded. -/
structure Recording (list : InsnList) (edits : List SiteEdit) (now : InsnList) (plan : EditPlan) :
    Prop where
  made : now = ⟨list.nodes ++ (edits.flatMap (·.made)).toArray, list.order⟩
  placed : ∀ anchor, plan.insertedBefore anchor =
    (Draft.ofEdits list.nodes.size edits).flatMap (·.placed anchor)
  removed : ∀ id, plan.removed.contains id = true ↔ ∃ e ∈ edits, id = e.site ∨ id ∈ e.remove
  moved : ∀ id, plan.moved.contains id = true ↔ ∃ e ∈ edits, id ∈ e.movedIds

namespace Recording

variable {list now : InsnList} {edits : List SiteEdit} {plan : EditPlan}

theorem start (list : InsnList) : Recording list [] list .empty :=
  ⟨by simp, fun anchor => by simp [EditPlan.insertedBefore, EditPlan.empty, Draft.ofEdits],
    by simp [EditPlan.empty], by simp [EditPlan.empty]⟩

theorem record (h : Recording list edits now plan) (e : SiteEdit) :
    Recording list (edits ++ [e]) (SiteEdit.record (now, plan) e).1
      (SiteEdit.record (now, plan) e).2 := by
  have hsize : now.nodes.size = list.nodes.size + (edits.flatMap (·.made)).length := by
    rw [h.made]
    simp
  refine ⟨?_, fun anchor => ?_, fun id => ?_, fun id => ?_⟩
  · rw [SiteEdit.record_list, h.made]
    simp
  · rw [SiteEdit.record_placed, h.placed, Draft.ofEdits_append, List.flatMap_append, hsize]
    simp [Draft.ofEdits]
  · rw [SiteEdit.record_removed, h.removed]
    simp [or_and_right, exists_or]
  · rw [SiteEdit.record_moved, h.moved]
    simp [or_and_right, exists_or]

end Recording

theorem recording_foldl (list : InsnList) (edits : List SiteEdit) :
    Recording list edits (edits.foldl SiteEdit.record (list, .empty)).1
      (edits.foldl SiteEdit.record (list, .empty)).2 := by
  induction edits using List.reverseRecOn with
  | nil => exact .start list
  | append_singleton edits e ih =>
    rw [List.foldl_append]
    exact ih.record e

/-! ## One replaced call -/

namespace SiteEdit

/-- The order with new nodes at the call, and without the call and the code that goes with it. -/
def orderAfter (e : SiteEdit) (ids order : List NodeId) : List NodeId :=
  (order.flatMap fun id => (if id = e.site then ids else []) ++ [id]).filter fun id =>
    !(decide (id = e.site) || decide (id ∈ e.remove))

theorem nodup_inserted {order ids : List NodeId} (site : NodeId) (horder : order.Nodup)
    (hids : ids.Nodup) (hfresh : ∀ id ∈ ids, id ∉ order) :
    (order.flatMap fun id => (if id = site then ids else []) ++ [id]).Nodup := by
  have hdisjoint : ∀ x ∈ order, ∀ y ∈ order, x ≠ y →
      ∀ n, n ∈ (if x = site then ids else []) ++ [x] → n ∉ (if y = site then ids else []) ++ [y] := by
    intro x hx y hy hne n hnx hny
    rw [List.mem_append, List.mem_singleton] at hnx hny
    rcases hnx with hnx | rfl
    · split_ifs at hnx with hxs
      · rcases hny with hny | rfl
        · split_ifs at hny with hys
          · exact hne (hxs.trans hys.symm)
          · simp at hny
        · exact hfresh n hnx hy
      · simp at hnx
    · rcases hny with hny | rfl
      · split_ifs at hny
        · exact hfresh n hny hx
        · simp at hny
      · exact hne rfl
  rw [List.nodup_flatMap]
  refine ⟨fun id hid => ?_, horder.imp_of_mem fun hx hy hne => hdisjoint _ hx _ hy hne⟩
  split_ifs
  · rw [List.nodup_append]
    refine ⟨hids, by simp, fun n hn m hm => ?_⟩
    rw [List.mem_singleton] at hm
    rintro rfl
    exact hfresh n hn (hm ▸ hid)
  · simp

end SiteEdit

/-- A single edit that moves nothing puts the code at the call in its place. -/
theorem Recording.commit_of_single {list now : InsnList} {e : SiteEdit} {plan : EditPlan}
    (h : Recording list [e] now plan) (hmove : e.move = none) (hproper : list.Proper) :
    now.commit plan = ⟨list.nodes ++ e.atSite.toArray,
      (e.orderAfter (list.freshIds e.atSite.length) list.order.toList).toArray⟩ := by
  have hstores : e.stores = [] := by simp [SiteEdit.stores, hmove]
  have hplaced : ∀ id, plan.insertedBefore id =
      if id = e.site then list.freshIds e.atSite.length else [] := by
    intro id
    rw [h.placed]
    simp [Draft.ofEdits, Draft.placed, Draft.block, hmove, hstores, InsnList.freshIds_eq]
  have hremoved : ∀ id, plan.removed.contains id = (decide (id = e.site) || decide (id ∈ e.remove)) := by
    intro id
    rw [Bool.eq_iff_iff, h.removed]
    simp
  have hstays : ∀ id, plan.moved.contains id = false := by
    intro id
    rw [Bool.eq_false_iff, ne_eq, h.moved]
    simp [SiteEdit.movedIds, hmove]
  have hfresh := hproper.freshIds_not_mem e.atSite.length
  have horder : (plan.apply list.order).toList =
      e.orderAfter (list.freshIds e.atSite.length) list.order.toList := by
    rw [EditPlan.apply_of_direct hstays]
    · simp only [hplaced, hremoved]
      rfl
    · simp only [hplaced]
      exact SiteEdit.nodup_inserted e.site hproper.distinct (NodeId.nodup_numbered _ _) hfresh
    · intro anchor hanchor id hid
      rw [hplaced] at hid ⊢
      split_ifs at hid with hsite
      · rw [if_neg]
        rintro rfl
        exact hfresh _ hid (hsite ▸ hanchor)
      · simp at hid
  rw [h.made, InsnList.commit, ← horder]
  simp [SiteEdit.made, hstores]

/-- The body after a single call was replaced, no code moved and no load of a method object gone. -/
theorem Body.replaceInvokes_of_single {ctx : MethodContext} {body : Body} {a : SiteAnalysis}
    {e : SiteEdit} (hany : body.insns.insns.any (·.isReflectiveInvoke) = true)
    (ha : SiteAnalysis.run ctx.method body = .ok a)
    (hedits : (Planning.run ctx a body).edits = [e]) (hmove : e.move = none)
    (hloads : (Planning.run ctx a body).loads.isEmpty = true) (hproper : body.insns.Proper) :
    body.replaceInvokes ctx = .ok
      ({ body with
          insns := ⟨body.insns.nodes ++ e.atSite.toArray,
            (e.orderAfter (body.insns.freshIds e.atSite.length) body.insns.order.toList).toArray⟩
          maxLocals := (Planning.run ctx a body).fresh },
        (Planning.run ctx a body).outcomes.reverse) := by
  have hlookups : a.deadLookups (Planning.run ctx a body).loads (Planning.run ctx a body).spent = [] := by
    rw [SiteAnalysis.deadLookups, if_pos hloads]
  have hrecording := recording_foldl body.insns [e]
  rw [List.foldl_cons, List.foldl_nil] at hrecording
  have hlist := hrecording.commit_of_single hmove hproper
  unfold replaceInvokes
  rw [if_neg (by simp [hany]), ha]
  simp only [bind, Except.bind, hedits, hlookups, List.isEmpty_cons, Bool.false_eq_true, if_false,
    List.reverse_cons, List.reverse_nil, List.nil_append, List.foldl_cons, List.foldl_nil]
  rw [← hlist]
  rfl

end DirectCall
