import DirectCall.Proofs.Frame.Path
import DirectCall.Proofs.InsnList.Proper

/-!
# Instructions by number

Seen from outside, a list is the sequence of its instructions: a label stands for the number of the
instruction it leads to, and so does a line. Positions in a proper list are those of its order
(`Proper.find?_idAt`).

A part of a list has the nodes that are left in the order in which they stood (`PartOf.rank_lt_iff`), so
neighbours that are left are neighbours still (`PartOf.rank_next`). To remove nodes leaves a part
(`partOf_commit_removeAll`).
-/

namespace DirectCall

/-! ## Positions -/

namespace Positions

theorem find?_record_of_not_mem {ids : List NodeId} {slots : Array (Option Nat)} {position : Nat}
    {id : NodeId} (hid : id ∉ ids) : find? ⟨record slots position ids⟩ id = find? ⟨slots⟩ id := by
  induction ids generalizing slots position with
  | nil => rfl
  | cons first rest ih =>
    rw [List.mem_cons, not_or] at hid
    have hne : first.index ≠ id.index := by
      intro heq
      apply hid.1
      cases first
      cases id
      exact congrArg NodeId.mk heq.symm
    rw [record, ih hid.2]
    simp only [find?, Array.getElem?_setIfInBounds, if_neg hne]

theorem find?_record_getElem {ids : List NodeId} (hnodup : ids.Nodup) {slots : Array (Option Nat)}
    {position i : Nat} (hi : i < ids.length) (hinside : ids[i].index < slots.size) :
    find? ⟨record slots position ids⟩ ids[i] = some (position + i) := by
  induction ids generalizing slots position i with
  | nil => exact absurd hi (Nat.not_lt_zero _)
  | cons first rest ih =>
    obtain ⟨hfirst, hrest⟩ := List.nodup_cons.mp hnodup
    cases i with
    | zero =>
      have hinside' : first.index < slots.size := hinside
      rw [record, List.getElem_cons_zero, find?_record_of_not_mem hfirst]
      simp [find?, hinside']
    | succ i =>
      rw [record, List.getElem_cons_succ, ih hrest (Nat.lt_of_succ_lt_succ hi)]
      · congr 1
        omega
      · simpa using hinside

end Positions

namespace InsnList

theorem Proper.find?_idAt {list : InsnList} (h : list.Proper) {p : Nat} (hp : p < list.size) :
    list.positions.find? (list.idAt p) = some p := by
  have hlength : p < list.order.toList.length := by simpa [size] using hp
  have hid : list.idAt p = list.order.toList[p] := by
    rw [idAt, Array.getElem?_eq_getElem hp, Option.getD_some, Array.getElem_toList]
    rfl
  have hinside := h.idAt_lt hp
  rw [hid] at hinside ⊢
  rw [positions, Positions.find?_record_getElem h.distinct hlength (by simpa using hinside), Nat.zero_add]

/-! ## Numbers -/

/-- Instructions in order, labels and lines left out. -/
def reals (list : InsnList) : List Insn := list.insns.toList.filter Insn.isReal

/-- Number of instructions ahead of a position; labels and lines do not count. -/
def ahead (list : InsnList) (position : Nat) : Nat :=
  (list.insns.toList.take position).countP Insn.isReal

/-- Number of the instruction that a node leads to: its own or that of the next one. The number behind
the last one is the end. -/
def leadsTo? (list : InsnList) (id : NodeId) : Option Nat := (list.positions.find? id).map list.ahead

/-- Lines with the numbers of the instructions they stand ahead of, counted from `number` on. -/
def linesFrom (number : Nat) : List Insn → List (Nat × UInt16)
  | [] => []
  | .line line :: rest => (number, line) :: linesFrom number rest
  | .label :: rest => linesFrom number rest
  | _ :: rest => linesFrom (number + 1) rest

/-- Lines with the numbers of the instructions they stand ahead of. -/
def lines (list : InsnList) : List (Nat × UInt16) := linesFrom 0 list.insns.toList

theorem linesFrom_of_isReal (number : Nat) {insn : Insn} (h : insn.isReal = true) (rest : List Insn) :
    linesFrom number (insn :: rest) = linesFrom (number + 1) rest := by
  cases insn with
  | label => cases h
  | line line => cases h
  | _ => rfl

theorem linesFrom_lines (number : Nat) (marks : List UInt16) (rest : List Insn) :
    linesFrom number (marks.map .line ++ rest) =
      marks.map (fun line => (number, line)) ++ linesFrom number rest := by
  induction marks with
  | nil => rfl
  | cons first marks ih =>
    show (number, first) :: linesFrom number (marks.map .line ++ rest) = _
    rw [ih]
    rfl

section

variable {list : InsnList}

theorem length_insns : list.insns.toList.length = list.size := by
  simp [insns, size]

theorem getElem?_insns {p : Nat} (hp : p < list.size) :
    list.insns.toList[p]? = some (list.insnAt p) := by
  have hposition : p < list.order.size := hp
  simp [insns, insnAt, idAt, hposition]

theorem insns_eq_map : list.insns.toList = (List.range list.size).map list.insnAt := by
  refine List.ext_getElem? fun p => ?_
  by_cases hp : p < list.size
  · rw [getElem?_insns hp, List.getElem?_map, List.getElem?_range hp, Option.map_some]
  · rw [List.getElem?_eq_none (by rw [length_insns]; omega),
      List.getElem?_eq_none (by rw [List.length_map, List.length_range]; omega)]

theorem ahead_succ {p : Nat} (hp : p < list.size) :
    list.ahead (p + 1) = list.ahead p + if (list.insnAt p).isReal then 1 else 0 := by
  rw [ahead, ahead, List.take_add_one, getElem?_insns hp, List.countP_append]
  simp [List.countP_cons]

@[simp] theorem ahead_zero : list.ahead 0 = 0 := rfl

theorem ahead_size : list.ahead list.size = list.reals.length := by
  rw [ahead, ← length_insns, List.take_length, reals, List.countP_eq_length_filter]

/-- An instruction stands at its own number. -/
theorem getElem?_reals {p : Nat} (hp : p < list.size) (hreal : (list.insnAt p).isReal = true) :
    list.reals[list.ahead p]? = some (list.insnAt p) := by
  have hlength : p < list.insns.toList.length := length_insns ▸ hp
  have hinsn : list.insns.toList[p] = list.insnAt p :=
    Option.some.inj ((List.getElem?_eq_getElem hlength).symm.trans (getElem?_insns hp))
  have hsplit : list.insns.toList = list.insns.toList.take p ++
      (list.insnAt p :: list.insns.toList.drop (p + 1)) := by
    rw [← hinsn, List.getElem_cons_drop, List.take_append_drop]
  rw [reals, ahead, hsplit, List.filter_append, List.filter_cons_of_pos hreal,
    List.take_append_of_le_length (by rw [List.length_take]; omega), List.take_take, Nat.min_self,
    List.countP_eq_length_filter, List.getElem?_append_right (Nat.le_refl _), Nat.sub_self]
  rfl

theorem ahead_le {p q : Nat} (hle : p ≤ q) (hq : q ≤ list.size) : list.ahead p ≤ list.ahead q := by
  induction hle with
  | refl => exact Nat.le_refl _
  | @step q _ ih =>
    rw [ahead_succ hq]
    exact Nat.le_trans (ih (Nat.le_of_succ_le hq)) (Nat.le_add_right _ _)

/-- A line stands ahead of as many instructions as its position. -/
theorem linesFrom_range' {p count : Nat} (hp : p + count ≤ list.size) :
    linesFrom (list.ahead p) ((List.range' p count).map list.insnAt) =
      (List.range' p count).filterMap fun q =>
        match list.insnAt q with
        | .line line => some (list.ahead q, line)
        | _ => none := by
  induction count generalizing p with
  | zero => rfl
  | succ count ih =>
    have hrest := @ih (p + 1) (by omega)
    rw [ahead_succ (by omega)] at hrest
    rw [List.range'_succ, List.map_cons, List.filterMap_cons, ← hrest]
    cases list.insnAt p with
    | label => rfl
    | line line => rfl
    | _ => rfl

theorem lines_eq_filterMap : list.lines = (List.range list.size).filterMap fun q =>
    match list.insnAt q with
    | .line line => some (list.ahead q, line)
    | _ => none := by
  rw [lines, insns_eq_map, List.range_eq_range', ← linesFrom_range' (by omega), ahead_zero]

end

/-! ## Parts of a list -/

namespace Proper

variable {list : InsnList}

/-- The position of a node is its rank. -/
theorem find?_eq_some (h : list.Proper) {id : NodeId} {p : Nat} :
    list.positions.find? id = some p ↔ id ∈ list.order ∧ list.rank id = p := by
  have hfind : id ∈ list.order → list.positions.find? id = some (list.rank id) := by
    intro hid
    obtain ⟨hlt, hidAt⟩ := h.rank_lt hid
    rw [← h.find?_idAt hlt, hidAt]
  constructor
  · intro hp
    have hid : id ∈ list.order := by
      by_contra hout
      have hout' : id ∉ list.order.toList := by simpa using hout
      rw [positions, Positions.find?_record_of_not_mem hout', Positions.find?, Array.getElem?_replicate] at hp
      split_ifs at hp
      · cases hp
      · cases hp
    exact ⟨hid, Option.some.inj ((hfind hid).symm.trans hp)⟩
  · rintro ⟨hid, rfl⟩
    exact hfind hid

theorem rank_inj (h : list.Proper) {first last : NodeId} (hfirst : first ∈ list.order)
    (hlast : last ∈ list.order) (heq : list.rank first = list.rank last) : first = last := by
  rw [← (h.rank_lt hfirst).2, heq, (h.rank_lt hlast).2]

/-- Nodes stand by increasing rank. -/
theorem pairwise_rank (h : list.Proper) :
    list.order.toList.Pairwise fun first last => list.rank first < list.rank last := by
  rw [List.pairwise_iff_getElem]
  intro p q hp hq hlt
  rw [rank, rank, h.distinct.idxOf_getElem p hp, h.distinct.idxOf_getElem q hq]
  exact hlt

end Proper

/-- Some nodes of a list, in their order there. -/
structure PartOf (b a : InsnList) : Prop where
  nodes : b.nodes = a.nodes
  order : b.order.toList.Sublist a.order.toList

namespace PartOf

variable {a b c : InsnList}

theorem refl (a : InsnList) : a.PartOf a := ⟨rfl, .refl _⟩

theorem trans (h : c.PartOf b) (h' : b.PartOf a) : c.PartOf a :=
  ⟨h.nodes.trans h'.nodes, h.order.trans h'.order⟩

theorem mem (h : b.PartOf a) {id : NodeId} (hid : id ∈ b.order) : id ∈ a.order := by
  have := h.order.subset (by simpa using hid)
  simpa using this

theorem get (h : b.PartOf a) (id : NodeId) : b.get id = a.get id := by
  rw [InsnList.get, InsnList.get, h.nodes]

theorem proper (h : b.PartOf a) (ha : a.Proper) : b.Proper :=
  ⟨ha.distinct.sublist h.order, fun id hid => h.nodes ▸ ha.owned id (h.mem hid)⟩

/-- Nodes that are left keep their order. -/
theorem rank_lt_iff (h : b.PartOf a) (ha : a.Proper) {first last : NodeId} (hfirst : first ∈ b.order)
    (hlast : last ∈ b.order) : b.rank first < b.rank last ↔ a.rank first < a.rank last := by
  have hb := h.proper ha
  have hkept : ∀ {x y : NodeId}, x ∈ b.order → y ∈ b.order → b.rank x < b.rank y →
      a.rank x < a.rank y := by
    intro x y hx hy hlt
    have hpairs := List.pairwise_iff_getElem.mp (ha.pairwise_rank.sublist h.order)
    have hx' : b.order.toList.idxOf x < b.order.toList.length :=
      List.idxOf_lt_length_of_mem (by simpa using hx)
    have hy' : b.order.toList.idxOf y < b.order.toList.length :=
      List.idxOf_lt_length_of_mem (by simpa using hy)
    have := hpairs _ _ hx' hy' hlt
    rwa [List.getElem_idxOf, List.getElem_idxOf] at this
  refine ⟨hkept hfirst hlast, fun hlt => ?_⟩
  rcases Nat.lt_trichotomy (b.rank first) (b.rank last) with hb' | heq | hb'
  · exact hb'
  · rw [hb.rank_inj hfirst hlast heq] at hlt
    exact absurd hlt (Nat.lt_irrefl _)
  · exact absurd (hkept hlast hfirst hb') (Nat.lt_asymm hlt)

theorem rank_le_iff (h : b.PartOf a) (ha : a.Proper) {first last : NodeId} (hfirst : first ∈ b.order)
    (hlast : last ∈ b.order) : b.rank first ≤ b.rank last ↔ a.rank first ≤ a.rank last := by
  rw [← Nat.not_lt, ← Nat.not_lt, h.rank_lt_iff ha hlast hfirst]

/-- A first node that is left is the first one still. -/
theorem rank_first (h : b.PartOf a) (ha : a.Proper) {id : NodeId} (hid : id ∈ b.order)
    (hfirst : a.rank id = 0) : b.rank id = 0 := by
  by_contra hlater
  have hb := h.proper ha
  have hsize := (hb.rank_lt hid).1
  have hahead : b.idAt 0 ∈ b.order := mem_order.mpr ⟨0, by omega, rfl⟩
  have hlt := (h.rank_lt_iff ha hahead hid).mp (by rw [hb.rank_idAt (by omega)]; omega)
  omega

/-- Neighbours that are left are neighbours still. -/
theorem rank_next (h : b.PartOf a) (ha : a.Proper) {first last : NodeId} (hfirst : first ∈ b.order)
    (hlast : last ∈ b.order) (hnext : a.rank last = a.rank first + 1) :
    b.rank last = b.rank first + 1 := by
  have hb := h.proper ha
  have hlt := (h.rank_lt_iff ha hfirst hlast).mpr (by omega)
  have hsize := (hb.rank_lt hlast).1
  by_contra hapart
  -- A node that stands between them in the part would have to stand between them in the list.
  have hrank := hb.rank_idAt (p := b.rank first + 1) (by omega)
  have hmiddle : b.idAt (b.rank first + 1) ∈ b.order := mem_order.mpr ⟨_, by omega, rfl⟩
  have hahead := (h.rank_lt_iff ha hfirst hmiddle).mp (by omega)
  have hbehind := (h.rank_lt_iff ha hmiddle hlast).mp (by omega)
  omega

end PartOf

/-- To remove nodes leaves the others in their order. -/
theorem toList_commit_removeAll {list : InsnList} (h : list.Proper) (ids : List NodeId) :
    (list.commit (EditPlan.empty.removeAll ids)).order.toList =
      list.order.toList.filter fun id => !decide (id ∈ ids) := by
  have halone : ∀ id, (EditPlan.empty.removeAll ids).insertedBefore id = [] := by
    intro id
    rw [EditPlan.insertedBefore_removeAll, EditPlan.insertedBefore_empty]
  have hsame : (list.order.toList.flatMap fun id =>
      (EditPlan.empty.removeAll ids).insertedBefore id ++ [id]) = list.order.toList := by
    simp [halone]
  have hstay : ∀ id, (EditPlan.empty.removeAll ids).moved.contains id = false := by
    simp [EditPlan.empty]
  rw [commit, EditPlan.apply_of_direct hstay (hsame.symm ▸ h.distinct) fun id _ n _ => halone n, hsame]
  refine List.filter_congr fun id _ => ?_
  rw [EditPlan.contains_removeAll]
  simp [EditPlan.empty]

theorem commit_removeAll_eq {list : InsnList} (h : list.Proper) (ids : List NodeId) :
    list.commit (EditPlan.empty.removeAll ids) =
      ⟨list.nodes, (list.order.toList.filter fun id => !decide (id ∈ ids)).toArray⟩ :=
  congrArg (InsnList.mk list.nodes) (Array.toList_inj.mp (toList_commit_removeAll h ids))

theorem partOf_commit_removeAll {list : InsnList} (h : list.Proper) (ids : List NodeId) :
    (list.commit (EditPlan.empty.removeAll ids)).PartOf list :=
  ⟨rfl, by rw [toList_commit_removeAll h]; exact List.filter_sublist⟩

theorem mem_order_commit_removeAll {list : InsnList} (h : list.Proper) {ids : List NodeId} {id : NodeId} :
    id ∈ (list.commit (EditPlan.empty.removeAll ids)).order ↔ id ∈ list.order ∧ id ∉ ids := by
  rw [← Array.mem_toList_iff, toList_commit_removeAll h]
  simp

end InsnList

end DirectCall
