import DirectCall.InsnList
import DirectCall.Proofs.EditPlan.Apply

/-!
# Proper instruction lists

The order of a list names nodes of its own, each once (`InsnList.Proper`). New nodes keep a list
proper, and so does a plan that places only nodes of the list (`Edited.commit`), whatever it removes
and moves.
-/

namespace DirectCall

/-- Identities of `count` nodes, numbered from `start` on. -/
def NodeId.numbered (start count : Nat) : List NodeId := (List.range' start count).map NodeId.mk

namespace NodeId

theorem mem_numbered {start count : Nat} {id : NodeId} :
    id ∈ numbered start count ↔ start ≤ id.index ∧ id.index < start + count := by
  simp only [numbered, List.mem_map, List.mem_range'_1]
  constructor
  · rintro ⟨index, hindex, rfl⟩
    exact hindex
  · exact fun h => ⟨id.index, h, rfl⟩

theorem numbered_append (start count more : Nat) :
    numbered start count ++ numbered (start + count) more = numbered start (count + more) := by
  simp [numbered, ← List.map_append]

theorem nodup_numbered (start count : Nat) : (numbered start count).Nodup :=
  List.Nodup.map (fun _ _ h => NodeId.mk.inj h) List.nodup_range'

end NodeId

namespace InsnList

/-- The order of a list names nodes of its own, each once. -/
structure Proper (list : InsnList) : Prop where
  distinct : list.order.toList.Nodup
  owned : ∀ id ∈ list.order, id.index < list.nodes.size

theorem ofInsns_proper (insns : Array Insn) : (ofInsns insns).Proper := by
  constructor
  · rw [ofInsns, Array.toList_map, Array.toList_range]
    exact List.Nodup.map (fun _ _ h => NodeId.mk.inj h) List.nodup_range
  · intro id hid
    obtain ⟨index, hindex, rfl⟩ := Array.mem_map.mp hid
    exact Array.mem_range.mp hindex

/-- Identities of the next nodes of a list. -/
def freshIds (list : InsnList) (count : Nat) : List NodeId :=
  (List.range' list.nodes.size count).map NodeId.mk

theorem createAll_eq (list : InsnList) (insns : List Insn) :
    list.createAll insns =
      (⟨list.nodes ++ insns.toArray, list.order⟩, list.freshIds insns.length) := by
  induction insns generalizing list with
  | nil => simp [createAll, freshIds]
  | cons insn rest ih =>
    rw [createAll, create]
    simp only [ih]
    simp [freshIds, List.range'_succ]

theorem freshIds_eq (list : InsnList) (count : Nat) :
    list.freshIds count = NodeId.numbered list.nodes.size count :=
  rfl

/-- Nodes in the middle of a list stand for the instructions there. -/
theorem map_get_numbered {list : InsnList} {front middle back : List Insn}
    (h : list.nodes.toList = front ++ (middle ++ back)) :
    (NodeId.numbered front.length middle.length).map list.get = middle := by
  refine List.ext_getElem? fun i => ?_
  simp only [NodeId.numbered, List.map_map, List.getElem?_map, InsnList.get, Function.comp_def]
  by_cases hi : i < middle.length
  · rw [List.getElem?_range' hi, Option.map_some, ← Array.getElem?_toList, h, Nat.one_mul,
      List.getElem?_append_right (Nat.le_add_right _ _), Nat.add_sub_cancel_left,
      List.getElem?_append_left hi, List.getElem?_eq_getElem hi, Option.getD_some]
  · rw [List.getElem?_eq_none (by simpa using Nat.le_of_not_lt hi),
      List.getElem?_eq_none (Nat.le_of_not_lt hi)]
    rfl

namespace Proper

variable {list : InsnList}

theorem freshIds_not_mem (h : list.Proper) (count : Nat) :
    ∀ id ∈ list.freshIds count, id ∉ list.order.toList := by
  intro id hid hmem
  have hle := (NodeId.mem_numbered.mp hid).1
  have hlt := h.owned id (by simpa using hmem)
  omega

/-- A node that has no place yet is put at the end. -/
theorem append (h : list.Proper) {id : NodeId} (hid : id ∉ list.order)
    (howned : id.index < list.nodes.size) : (list.append id).Proper := by
  constructor
  · rw [InsnList.append, Array.toList_push, ← List.concat_eq_append]
    exact h.distinct.concat (by simpa using hid)
  · intro n hn
    rcases Array.mem_push.mp hn with hn | rfl
    · exact h.owned n hn
    · exact howned

/-- Nodes without a place do no harm. -/
theorem grow (h : list.Proper) (new : Array Insn) :
    (⟨list.nodes ++ new, list.order⟩ : InsnList).Proper := by
  refine ⟨h.distinct, fun id hid => ?_⟩
  rw [Array.size_append]
  exact Nat.lt_of_lt_of_le (h.owned id hid) (Nat.le_add_right _ _)

theorem create (h : list.Proper) (insn : Insn) : (list.create insn).1.Proper := by
  rw [InsnList.create, Array.push_eq_append]
  exact h.grow #[insn]

theorem push (h : list.Proper) (insn : Insn) : (list.push insn).1.Proper := by
  refine (h.create insn).append (fun hmem => ?_) (by simp [InsnList.create])
  exact absurd (h.owned _ hmem) (Nat.lt_irrefl _)

end Proper

/-! ## Positions -/

theorem mem_order {list : InsnList} {id : NodeId} :
    id ∈ list.order ↔ ∃ p < list.size, id = list.idAt p := by
  rw [Array.mem_iff_getElem]
  constructor
  · rintro ⟨p, hp, rfl⟩
    exact ⟨p, hp, by rw [idAt, Array.getElem?_eq_getElem hp, Option.getD_some]⟩
  · rintro ⟨p, hp, rfl⟩
    exact ⟨p, hp, by rw [idAt, Array.getElem?_eq_getElem hp, Option.getD_some]⟩

/-- The nodes of a list, split at a position. -/
theorem order_split {list : InsnList} {p : Nat} (hp : p < list.size) :
    ∃ ahead behind, list.order.toList = ahead ++ list.idAt p :: behind ∧
      (∀ n ∈ ahead, ∃ q < p, n = list.idAt q) ∧
      ∀ n ∈ behind, ∃ q < list.size, p < q ∧ n = list.idAt q := by
  have hlength : p < list.order.toList.length := by rwa [Array.length_toList]
  have hidAt : ∀ {q} (hq : q < list.order.toList.length), list.order.toList[q] = list.idAt q := by
    intro q hq
    rw [idAt, ← Array.getElem?_toList, List.getElem?_eq_getElem hq, Option.getD_some]
  refine ⟨list.order.toList.take p, list.order.toList.drop (p + 1), ?_, fun n hn => ?_, fun n hn => ?_⟩
  · rw [← hidAt hlength, ← List.drop_eq_getElem_cons, List.take_append_drop]
  · obtain ⟨q, hq, rfl⟩ := List.mem_take_iff_getElem.mp hn
    exact ⟨q, by omega, hidAt _⟩
  · obtain ⟨q, hq, rfl⟩ := List.mem_drop_iff_getElem.mp hn
    have hsize : p + 1 + q < list.size := by
      rw [Array.length_toList] at hq
      show p + 1 + q < list.order.size
      omega
    exact ⟨p + 1 + q, hsize, by omega, hidAt _⟩

/-- The position of a node; a node without a place comes last. -/
def rank (list : InsnList) (id : NodeId) : Nat := list.order.toList.idxOf id

namespace Proper

variable {list : InsnList}

theorem rank_idAt (h : list.Proper) {p : Nat} (hp : p < list.size) : list.rank (list.idAt p) = p := by
  rw [rank, idAt, Array.getElem?_eq_getElem hp, Option.getD_some]
  exact h.distinct.idxOf_getElem p (by rw [Array.length_toList]; exact hp)

theorem rank_lt (h : list.Proper) {id : NodeId} (hid : id ∈ list.order) :
    list.rank id < list.size ∧ list.idAt (list.rank id) = id := by
  obtain ⟨p, hp, rfl⟩ := mem_order.mp hid
  rw [h.rank_idAt hp]
  exact ⟨hp, rfl⟩

theorem idAt_inj (h : list.Proper) {p q : Nat} (hp : p < list.size) (hq : q < list.size)
    (heq : list.idAt p = list.idAt q) : p = q := by
  rw [← h.rank_idAt hp, heq, h.rank_idAt hq]

theorem idAt_lt (h : list.Proper) {p : Nat} (hp : p < list.size) :
    (list.idAt p).index < list.nodes.size :=
  h.owned _ (mem_order.mpr ⟨p, hp, rfl⟩)

theorem rank_new (h : list.Proper) {id : NodeId} (hid : list.nodes.size ≤ id.index) :
    list.rank id = list.size := by
  have hout : id ∉ list.order.toList := by
    intro hmem
    have := h.owned id (by simpa using hmem)
    omega
  rw [rank, List.idxOf_eq_length hout]
  rfl

end Proper

/-- A plan that places neither of two nodes ahead of others keeps them in order. -/
theorem Proper.rank_commit {list : InsnList} {plan : EditPlan} (h : list.Proper) {first last : NodeId}
    (hle : list.rank first ≤ list.rank last) (hfirst : first ∈ list.order) (hlast : last ∈ list.order)
    (hfixed : ∀ anchor, first ∉ plan.insertedBefore anchor ∧ last ∉ plan.insertedBefore anchor)
    (hstays : first ∈ plan.apply list.order) :
    (list.commit plan).rank first ≤ (list.commit plan).rank last := by
  by_cases heq : first = last
  · exact heq ▸ Nat.le_refl _
  · obtain ⟨hp, hidAt⟩ := h.rank_lt hfirst
    obtain ⟨hq, hidAt'⟩ := h.rank_lt hlast
    obtain ⟨ahead, behind, horder, hahead, hbehind⟩ := order_split hp
    have hlt : list.rank first < list.rank last := by
      refine Nat.lt_of_le_of_ne hle fun hsame => heq ?_
      rw [← hidAt, hsame, hidAt']
    rw [List.append_cons, hidAt] at horder
    have hout : last ∉ ahead ++ [first] := by
      intro hmem
      rcases List.mem_append.mp hmem with hmem | hmem
      · obtain ⟨r, hr, hid⟩ := hahead last hmem
        rw [hid, h.rank_idAt (by omega)] at hlt
        omega
      · exact heq (List.mem_singleton.mp hmem).symm
    have hnone : first ∉ behind := by
      intro hmem
      obtain ⟨r, hr, hlt', hid⟩ := hbehind first hmem
      have hrank := h.rank_idAt hr
      rw [← hid] at hrank
      omega
    obtain ⟨before, after, hsplit, hbefore, hafter⟩ := EditPlan.apply_split horder hout hnone hfixed
    have hmem : first ∈ before := by
      rw [← Array.mem_toList_iff, hsplit] at hstays
      exact (List.mem_append.mp hstays).resolve_right hafter
    rw [rank, rank, show (list.commit plan).order.toList = before ++ after from hsplit,
      List.idxOf_append_of_mem hmem, List.idxOf_append_of_notMem hbefore]
    exact Nat.le_trans (Nat.le_of_lt (List.idxOf_lt_length_of_mem hmem)) (Nat.le_add_right _ _)

/-! ## Plans -/

/-- All nodes that a plan places are nodes of the list. -/
def Owns (list : InsnList) (plan : EditPlan) : Prop :=
  ∀ anchor, ∀ id ∈ plan.insertedBefore anchor, id.index < list.nodes.size

/-- A list on which edits are recorded: it stays proper, and the plan places nodes of it. -/
structure Edited (list : InsnList) (plan : EditPlan) : Prop where
  proper : list.Proper
  owns : list.Owns plan

namespace Edited

variable {list : InsnList} {plan : EditPlan}

theorem start (h : list.Proper) : list.Edited .empty :=
  ⟨h, fun anchor id hid => by simp [EditPlan.insertedBefore, EditPlan.empty] at hid⟩

theorem createAll (h : list.Edited plan) (insns : List Insn) :
    (list.createAll insns).1.Edited plan := by
  rw [createAll_eq]
  refine ⟨h.proper.grow insns.toArray, fun anchor id hid => ?_⟩
  rw [Array.size_append]
  exact Nat.lt_of_lt_of_le (h.owns anchor id hid) (Nat.le_add_right _ _)

theorem insertBefore (h : list.Edited plan) {ids : List NodeId}
    (hids : ∀ id ∈ ids, id.index < list.nodes.size) (anchor : NodeId) :
    list.Edited (plan.insertBefore anchor ids) := by
  refine ⟨h.proper, fun anchor' id hid => ?_⟩
  rw [EditPlan.insertedBefore_insertBefore] at hid
  split_ifs at hid
  · rcases List.mem_append.mp hid with hid | hid
    · exact h.owns anchor id hid
    · exact hids id hid
  · exact h.owns anchor' id hid

/-- New nodes are placed ahead of a node. -/
theorem insertNew (h : list.Edited plan) (insns : List Insn) (anchor : NodeId) :
    (list.createAll insns).1.Edited (plan.insertBefore anchor (list.createAll insns).2) := by
  refine (h.createAll insns).insertBefore (fun id hid => ?_) anchor
  rw [createAll_eq] at hid ⊢
  rw [Array.size_append, List.size_toArray]
  exact (NodeId.mem_numbered.mp hid).2

theorem remove (h : list.Edited plan) (id : NodeId) : list.Edited (plan.remove id) :=
  ⟨h.proper, h.owns⟩

/-- A plan whose nodes are nodes of the list keeps it proper. -/
theorem commit (h : list.Edited plan) : (list.commit plan).Proper := by
  refine ⟨plan.apply_nodup list.order, fun id hid => ?_⟩
  obtain ⟨hmem | ⟨anchor, hmem⟩, _⟩ := EditPlan.mem_apply hid
  · exact h.proper.owned id hmem
  · exact h.owns anchor id hmem

end Edited

end InsnList

end DirectCall
