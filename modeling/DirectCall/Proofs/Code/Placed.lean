import DirectCall.Proofs.Code.Decode
import DirectCall.Proofs.Graph.Reach
import DirectCall.Proofs.InsnList.Number

/-!
# The list of a decoded body

Instructions are placed one after the other, each behind its label and its lines. So the list of a decoded
body is known block by block (`Placed`), and the label of an offset leads to the instruction there.
-/

namespace DirectCall

/-! ## Lists that are built up -/

/-- The second list is the first one with some nodes more at its end. -/
structure InsnList.Extends (list list' : InsnList) (new : List Insn) : Prop where
  insns : list'.insns.toList = list.insns.toList ++ new
  order : ∃ ids, list'.order.toList = list.order.toList ++ ids
  nodes : ∃ more, list'.nodes.toList = list.nodes.toList ++ more

namespace InsnList.Extends

variable {list list' list'' : InsnList} {new new' : List Insn}

theorem refl (list : InsnList) : list.Extends list [] :=
  ⟨by simp, ⟨[], by simp⟩, ⟨[], by simp⟩⟩

theorem trans (h : list.Extends list' new) (h' : list'.Extends list'' new') :
    list.Extends list'' (new ++ new') := by
  obtain ⟨hinsns, ⟨ids, horder⟩, ⟨more, hnodes⟩⟩ := h
  obtain ⟨hinsns', ⟨ids', horder'⟩, ⟨more', hnodes'⟩⟩ := h'
  refine ⟨by rw [hinsns', hinsns, List.append_assoc], ⟨ids ++ ids', ?_⟩, ⟨more ++ more', ?_⟩⟩
  · rw [horder', horder, List.append_assoc]
  · rw [hnodes', hnodes, List.append_assoc]

theorem append (list : InsnList) (id : NodeId) : list.Extends (list.append id) [list.get id] := by
  refine ⟨?_, ⟨[id], by simp [InsnList.append]⟩, ⟨[], by simp [InsnList.append]⟩⟩
  simp only [InsnList.insns, InsnList.append, Array.toList_map, Array.toList_push, List.map_append]
  rfl

theorem push (hproper : list.Proper) (insn : Insn) : list.Extends (list.push insn).1 [insn] := by
  refine ⟨?_, ⟨[⟨list.nodes.size⟩], by simp [InsnList.push, InsnList.create, InsnList.append]⟩,
    ⟨[insn], by simp [InsnList.push, InsnList.create, InsnList.append]⟩⟩
  have hold : list.order.toList.map (list.push insn).1.get = list.order.toList.map list.get := by
    refine List.map_congr_left fun id hid => ?_
    have hlt := hproper.owned id (Array.mem_toList_iff.mp hid)
    simp [InsnList.get, InsnList.push, InsnList.create, InsnList.append, Array.getElem?_push_lt hlt, hlt]
  have hnew : (list.push insn).1.get ⟨list.nodes.size⟩ = insn := by
    simp [InsnList.get, InsnList.push, InsnList.create, InsnList.append]
  have horder : (list.push insn).1.order.toList = list.order.toList ++ [⟨list.nodes.size⟩] := by
    simp [InsnList.push, InsnList.create, InsnList.append]
  rw [InsnList.insns, Array.toList_map, horder, List.map_append, hold, List.map_singleton, hnew,
    InsnList.insns, Array.toList_map]

theorem size_le (h : list.Extends list' new) : list.size ≤ list'.size := by
  obtain ⟨ids, horder⟩ := h.order
  have hlength := congrArg List.length horder
  simp only [Array.length_toList, List.length_append] at hlength
  show list.order.size ≤ list'.order.size
  omega

theorem idAt (h : list.Extends list' new) {p : Nat} (hp : p < list.size) : list'.idAt p = list.idAt p := by
  obtain ⟨ids, horder⟩ := h.order
  have hlength : p < list.order.toList.length := by simpa [InsnList.size] using hp
  rw [InsnList.idAt, InsnList.idAt, ← Array.getElem?_toList, ← Array.getElem?_toList, horder,
    List.getElem?_append_left hlength]

theorem ahead (h : list.Extends list' new) {p : Nat} (hp : p ≤ list.size) :
    list'.ahead p = list.ahead p := by
  rw [InsnList.ahead, InsnList.ahead, h.insns,
    List.take_append_of_le_length (by rw [InsnList.length_insns]; exact hp)]

end InsnList.Extends

namespace Code

variable {labels : Labels} {offsets : List Nat} {lines : Array (List UInt16)} {list : InsnList}
  {done : List Located}

/-! ## Blocks -/

/-- The label of an offset, if it has one. -/
def labelAt (labels : Labels) (offset : Nat) : List Insn :=
  if (labels.find? offset).isSome then [.label] else []

/-- An instruction behind its label and its lines. -/
def block (labels : Labels) (lines : Array (List UInt16)) (l : Located) : List Insn :=
  labelAt labels l.offset ++ (lines.getD l.offset []).map .line ++ [l.link labels]

/-- The label leads to the instruction with the number. -/
def LeadsTo (labels : Labels) (list : InsnList) (offset number : Nat) : Prop :=
  ∀ id, labels.find? offset = some id → ∃ p < list.size, list.idAt p = id ∧ list.ahead p = number

/-- The list holds the blocks of the `done` instructions, and their labels lead to them. -/
structure Placed (labels : Labels) (offsets : List Nat) (lines : Array (List UInt16))
    (done : List Located) (list : InsnList) : Prop where
  blank : ∀ i < offsets.length, list.nodes[i]? = some .label
  insns : list.insns.toList = done.flatMap (block labels lines)
  leads : ∀ i (hi : i < done.length), LeadsTo labels list done[i].offset i

theorem LeadsTo.extends {list' : InsnList} {new : List Insn} {offset number : Nat}
    (h : LeadsTo labels list offset number) (hextends : list.Extends list' new) :
    LeadsTo labels list' offset number := by
  intro id hid
  obtain ⟨p, hp, hidAt, hahead⟩ := h id hid
  refine ⟨p, Nat.lt_of_lt_of_le hp hextends.size_le, ?_, ?_⟩
  · rw [hextends.idAt hp, hidAt]
  · rw [hextends.ahead (Nat.le_of_lt hp), hahead]

theorem isReal_link (labels : Labels) (l : Located) : (l.link labels).isReal = l.insn.isReal := by
  unfold Located.link
  split
  · rename_i h _
    rw [h]
    rfl
  · rename_i h _
    rw [h]
    rfl
  · rename_i h _
    rw [h]
    rfl
  · rfl

theorem filter_labelAt (labels : Labels) (offset : Nat) : (labelAt labels offset).filter Insn.isReal = [] := by
  rw [labelAt]
  split_ifs <;> rfl

theorem filter_blocks {ls : List Located} (h : ∀ l ∈ ls, l.insn.isReal = true) :
    (ls.flatMap (block labels lines)).filter Insn.isReal = ls.map (·.link labels) := by
  have hlines : ∀ marks : List UInt16, (marks.map Insn.line).filter Insn.isReal = [] := by
    intro marks
    simp [List.filter_map, Function.comp_def, Insn.isReal]
  induction ls with
  | nil => rfl
  | cons l ls ih =>
    rw [List.flatMap_cons, List.filter_append, ih fun l' hl' => h l' (List.mem_cons_of_mem _ hl'), block,
      List.filter_append, List.filter_append, filter_labelAt, hlines, List.filter_singleton, isReal_link,
      h l List.mem_cons_self]
    rfl

/-- The label of an offset is placed at the end. -/
theorem extends_placeLabel (hblank : ∀ i < offsets.length, list.nodes[i]? = some .label)
    (hnumbers : labels.Numbers offsets) (offset : Nat) :
    list.Extends (placeLabel labels list offset) (labelAt labels offset) ∧
      LeadsTo labels (placeLabel labels list offset) offset (list.ahead list.size) := by
  unfold placeLabel labelAt
  cases hfind : labels.find? offset with
  | none =>
    refine ⟨.refl list, fun id hid => ?_⟩
    rw [hfind] at hid
    cases hid
  | some id =>
    have hget : list.get id = .label := by
      rw [InsnList.get, hblank id.index (hnumbers.lt hfind), Option.getD_some]
    have hextends := InsnList.Extends.append list id
    refine ⟨hget ▸ hextends, fun id' hid' => ?_⟩
    cases hfind.symm.trans hid'
    refine ⟨list.size, by simp [InsnList.append, InsnList.size], ?_, hextends.ahead (Nat.le_refl _)⟩
    simp [InsnList.append, InsnList.idAt, InsnList.size]

theorem extends_lines (hproper : list.Proper) (marks : List UInt16) :
    list.Extends (marks.foldl (fun list line => (list.push (.line line)).1) list) (marks.map .line) ∧
      (marks.foldl (fun list line => (list.push (.line line)).1) list).Proper := by
  induction marks generalizing list with
  | nil => exact ⟨.refl list, hproper⟩
  | cons first rest ih =>
    obtain ⟨hrest, hproper'⟩ := ih (hproper.push (.line first))
    exact ⟨(InsnList.Extends.push hproper _).trans hrest, hproper'⟩

namespace Placed

theorem start (labels : Labels) (offsets : List Nat) (lines : Array (List UInt16)) :
    Placed labels offsets lines [] ⟨Array.replicate offsets.length .label, #[]⟩ := by
  refine ⟨fun i hi => ?_, by simp [InsnList.insns], fun i hi => absurd hi (Nat.not_lt_zero _)⟩
  rw [Array.getElem?_replicate, if_pos hi]

theorem reals (h : Placed labels offsets lines done list) (hreal : ∀ l ∈ done, l.insn.isReal = true) :
    list.reals = done.map (·.link labels) := by
  rw [InsnList.reals, h.insns, filter_blocks hreal]

theorem ahead_size (h : Placed labels offsets lines done list)
    (hreal : ∀ l ∈ done, l.insn.isReal = true) : list.ahead list.size = done.length := by
  rw [InsnList.ahead_size, h.reals hreal, List.length_map]

/-- One block more. -/
theorem place {l : Located} (h : Placed labels offsets lines done list)
    (hwaiting : Waiting labels offsets l.offset list) (hreal : ∀ l ∈ done, l.insn.isReal = true) :
    Placed labels offsets lines (done ++ [l]) (place labels lines list l) := by
  obtain ⟨hlabel, hleads⟩ := extends_placeLabel h.blank hwaiting.numbers l.offset
  obtain ⟨hlines, hproper⟩ := extends_lines hwaiting.placeLabel.proper (lines.getD l.offset [])
  have hinsn := InsnList.Extends.push hproper (l.link labels)
  have hall := (hlabel.trans hlines).trans hinsn
  refine ⟨fun i hi => ?_, ?_, fun i hi => ?_⟩
  · obtain ⟨more, hnodes⟩ := hall.nodes
    have hold := h.blank i hi
    rw [← Array.getElem?_toList] at hold
    have hlt := (List.getElem?_eq_some_iff.mp hold).1
    show (Code.place labels lines list l).nodes[i]? = some .label
    rw [← Array.getElem?_toList]
    exact (congrArg (·[i]?) hnodes).trans ((List.getElem?_append_left hlt).trans hold)
  · rw [List.flatMap_append, List.flatMap_singleton, ← h.insns]
    exact hall.insns
  · rcases Nat.lt_or_ge i done.length with hlt | hge
    · rw [List.getElem_append_left hlt]
      exact (h.leads i hlt).extends hall
    · have hlast : i = done.length := by
        rw [List.length_append, List.length_singleton] at hi
        omega
      subst hlast
      rw [List.getElem_concat_length rfl]
      rw [h.ahead_size hreal] at hleads
      exact (hleads.extends hlines).extends hinsn

/-- All blocks, one after the other. -/
theorem foldl_place {insns : List Located} {bound : Nat} (h : Placed labels offsets lines done list)
    (hwaiting : Waiting labels offsets bound list)
    (hincreasing : insns.Pairwise fun l l' => l.offset < l'.offset)
    (hbounds : ∀ l ∈ insns, bound ≤ l.offset) (hreal : ∀ l ∈ done ++ insns, l.insn.isReal = true) :
    Placed labels offsets lines (done ++ insns) (insns.foldl (Code.place labels lines) list) := by
  induction insns generalizing done list bound with
  | nil =>
    rw [List.append_nil]
    exact h
  | cons first rest ih =>
    obtain ⟨hfirst, hrest⟩ := List.pairwise_cons.mp hincreasing
    have hhere := hwaiting.mono (hbounds first List.mem_cons_self)
    have hstep := h.place hhere fun l hl => hreal l (List.mem_append_left _ hl)
    have hall := ih hstep (hhere.place lines) hrest hfirst (by
      intro l hl
      rw [List.append_assoc] at hl
      exact hreal l hl)
    rw [List.append_assoc] at hall
    exact hall

end Placed

/-! ## Labels of the offsets that are referred to -/

theorem mem_members_mark {size : Nat} {vertices : List Nat} {v : Nat} :
    v ∈ Graph.members (Graph.mark size vertices) ↔ v < size ∧ v ∈ vertices := by
  rw [Graph.mem_members, Graph.getD_mark, and_comm]

/-- Offsets that are listed have labels. -/
theorem Labels.ofOffsets_isSome {size : Nat} {offsets : List Nat} (hinside : ∀ o ∈ offsets, o < size)
    {offset : Nat} (h : offset ∈ offsets) : ((Labels.ofOffsets size offsets).find? offset).isSome := by
  have hfold : ∀ (pairs : List (Nat × Nat)) (nodes : Array (Option NodeId)), offset < nodes.size →
      ((nodes.getD offset none).isSome ∨ offset ∈ pairs.map (·.1)) →
      ((pairs.foldl (fun nodes pair => nodes.setIfInBounds pair.1 (some ⟨pair.2⟩)) nodes).getD
        offset none).isSome := by
    intro pairs
    induction pairs with
    | nil =>
      intro nodes _ h
      simpa using h
    | cons first rest ih =>
      intro nodes hsize h
      refine ih _ (by rwa [Array.size_setIfInBounds]) ?_
      simp only [Array.getD_eq_getD_getElem?, Array.getElem?_setIfInBounds] at h ⊢
      by_cases heq : first.1 = offset
      · simp [heq, hsize]
      · rw [if_neg heq]
        rcases h with h | h
        · exact .inl h
        · rcases List.mem_cons.mp h with h | h
          · exact absurd h.symm heq
          · exact .inr h
  rw [find?, ofOffsets]
  refine hfold _ _ (by simpa using hinside offset h) (.inr ?_)
  rw [List.map_fst_zip (Nat.le_of_eq List.length_range.symm)]
  exact h

/-- The lines of an offset are those of the table, in its order. -/
theorem getD_linesByOffset {size : Nat} (table : List (Nat × UInt16)) {offset : Nat}
    (hoffset : offset < size) :
    (linesByOffset size table).getD offset [] = (table.filter (·.1 = offset)).map (·.2) := by
  have hboth : (linesByOffset size table).size = size ∧
      (linesByOffset size table).getD offset [] = (table.filter (·.1 = offset)).map (·.2) := by
    unfold linesByOffset
    induction table with
    | nil => simp [hoffset]
    | cons first rest ih =>
      obtain ⟨hsize, hlines⟩ := ih
      rw [List.foldr_cons, List.filter_cons]
      refine ⟨by rw [Array.size_modify, hsize], ?_⟩
      rw [Array.getD_eq_getD_getElem?] at hlines ⊢
      rw [Array.getElem?_modify]
      by_cases heq : first.1 = offset
      · simp only [heq, if_true, decide_true]
        rw [List.map_cons, ← hlines, Array.getElem?_eq_getElem (by rw [hsize]; exact hoffset)]
        rfl
      · simp only [heq, if_false, decide_false, Bool.false_eq_true]
        exact hlines
  exact hboth.2

/-! ## Decoded bodies -/

/-- Labels of the offsets in a code of some length that are referred to. -/
def labelsOf (length : Nat) (references : List Nat) : Labels :=
  Labels.ofOffsets (length + 1) (Graph.members (Graph.mark (length + 1) references))

/-- The list of instructions, behind their labels and lines. -/
def listOf (length : Nat) (insns : List Located) (references : List Nat)
    (table : List (Nat × UInt16)) : InsnList :=
  let offsets := Graph.members (Graph.mark (length + 1) references)
  let start : InsnList := ⟨Array.replicate offsets.length .label, #[]⟩
  placeLabel (labelsOf length references)
    (insns.foldl (place (labelsOf length references) (linesByOffset (length + 1) table)) start) length

/-- An instruction starts at the offset, or the code ends there. -/
def IsBoundary (length : Nat) (insns : List Located) (offset : Nat) : Prop :=
  offset = length ∨ ∃ l ∈ insns, l.offset = offset

/-- Number of the instruction at an offset. -/
def numberAt (insns : List Located) (offset : Nat) : Nat := insns.countP fun l => l.offset < offset

section

variable {insns : List Located} {handlers : List HandlerRange} {tables : Tables}

theorem mem_referenced_target {l : Located} (hl : l ∈ insns) {t : Nat} (ht : t ∈ l.targets) :
    t ∈ referenced insns handlers tables := by
  simp only [referenced, List.mem_append]
  exact .inl (.inl (.inl (List.mem_flatMap.mpr ⟨l, hl, ht⟩)))

theorem mem_referenced_region {h : HandlerRange} (hh : h ∈ handlers) {o : Nat}
    (ho : o ∈ [h.start.toNat, h.stop.toNat, h.handler.toNat]) : o ∈ referenced insns handlers tables := by
  simp only [referenced, List.mem_append]
  exact .inl (.inl (.inr (List.mem_flatMap.mpr ⟨h, hh, ho⟩)))

theorem mem_referenced_line {e : Nat × UInt16} (he : e ∈ tables.lines) :
    e.1 ∈ referenced insns handlers tables := by
  simp only [referenced, List.mem_append]
  exact .inl (.inr (List.mem_map_of_mem he))

theorem mem_referenced_range {v : LocalRange} (hv : v ∈ tables.locals) {o : Nat}
    (ho : o ∈ [v.start, v.stop]) : o ∈ referenced insns handlers tables := by
  simp only [referenced, List.mem_append]
  exact .inr (List.mem_flatMap.mpr ⟨v, hv, ho⟩)

end

end Code

open Code in
/-- What a code attribute has to be like to be decoded, and the body that it gives. -/
theorem Body.decode_eq_ok {pool : ConstantPool} {code : CodeAttribute} {body : Body} :
    Body.decode pool code = .ok body ↔ ∃ insns tables regions,
      located pool code.code = .ok insns ∧ Tables.ofAttributes pool code.attributes = .ok tables ∧
      (∀ o ∈ referenced insns code.handlers tables, IsBoundary code.code.length insns o) ∧
      code.handlers.mapM (region pool
        (labelsOf code.code.length (referenced insns code.handlers tables))) = .ok regions ∧
      body =
        { insns := listOf code.code.length insns (referenced insns code.handlers tables) tables.lines
          regions := regions
          locals := tables.locals.map
            (localEntry (labelsOf code.code.length (referenced insns code.handlers tables)))
          maxStack := code.maxStack
          maxLocals := code.maxLocals } := by
  have hboundary : ∀ (insns : List Located) (references : List Nat),
      (references.filter fun o => !(Std.HashSet.ofList
        (code.code.length :: insns.map (·.offset))).contains o) = [] ↔
      ∀ o ∈ references, IsBoundary code.code.length insns o := by
    intro insns references
    rw [List.filter_eq_nil_iff]
    refine forall_congr' fun o => forall_congr' fun _ => ?_
    rw [Std.HashSet.contains_ofList, Bool.not_eq_true', Bool.not_eq_false, List.contains_iff_mem,
      List.mem_cons, List.mem_map]
    rfl
  constructor
  · intro h
    unfold decode at h
    obtain ⟨insns, hinsns, h⟩ := bind_eq_ok.mp h
    obtain ⟨tables, htables, h⟩ := bind_eq_ok.mp h
    dsimp only at h
    split at h
    · cases h
    · rename_i hnone
      rw [List.min?_eq_none_iff, hboundary] at hnone
      obtain ⟨regions, hregions, h⟩ := bind_eq_ok.mp h
      cases h
      exact ⟨insns, tables, regions, hinsns, htables, hnone, hregions, rfl⟩
  · rintro ⟨insns, tables, regions, hinsns, htables, hboundaries, hregions, rfl⟩
    unfold decode
    refine bind_eq_ok.mpr ⟨insns, hinsns, bind_eq_ok.mpr ⟨tables, htables, ?_⟩⟩
    dsimp only
    rw [(hboundary insns _).mpr hboundaries]
    exact bind_eq_ok.mpr ⟨regions, hregions, rfl⟩

namespace Code

/-- Instructions at increasing offsets within a code of some length. -/
structure InOrder (length : Nat) (insns : List Located) : Prop where
  increasing : insns.Pairwise fun l l' => l.offset < l'.offset
  inside : ∀ l ∈ insns, l.offset < length
  real : ∀ l ∈ insns, l.insn.isReal = true

/-- Instructions that were read are in order. -/
theorem inOrder_of_located {pool : ConstantPool} {insns : List Located} {code : List UInt8}
    (h : located pool code = .ok insns) : InOrder code.length insns := by
  obtain ⟨hincreasing, hinside⟩ := located_increasing h
  refine ⟨hincreasing, hinside, fun l hl => ?_⟩
  obtain ⟨_, _, hspells⟩ := (located_iff.mp h).exists_of_mem hl
  exact hspells.isReal

section

variable {length : Nat} {insns : List Located} {references : List Nat} {table : List (Nat × UInt16)}

theorem InOrder.numberAt_getElem (h : InOrder length insns) {i : Nat} (hi : i < insns.length) :
    numberAt insns insns[i].offset = i := by
  have hahead : ∀ l ∈ insns.take i, l.offset < insns[i].offset := by
    intro l hl
    obtain ⟨j, hj, rfl⟩ := List.mem_take_iff_getElem.mp hl
    exact List.pairwise_iff_getElem.mp h.increasing j i (by omega) hi (by omega)
  have hbehind : ∀ l ∈ insns.drop i, ¬ l.offset < insns[i].offset := by
    intro l hl
    obtain ⟨j, hj, rfl⟩ := List.mem_drop_iff_getElem.mp hl
    rcases Nat.eq_zero_or_pos j with rfl | hpos
    · exact Nat.lt_irrefl _
    · exact Nat.lt_asymm (List.pairwise_iff_getElem.mp h.increasing i (i + j) hi (by omega) (by omega))
  have hlength : (insns.take i).length = i := List.length_take_of_le (Nat.le_of_lt hi)
  rw [numberAt]
  generalize insns[i].offset = offset at hahead hbehind
  rw [← List.take_append_drop i insns, List.countP_append,
    List.countP_eq_length.mpr fun l hl => decide_eq_true (hahead l hl),
    List.countP_eq_zero.mpr fun l hl => by simpa using hbehind l hl, hlength]
  rfl

theorem InOrder.numberAt_length (h : InOrder length insns) : numberAt insns length = insns.length := by
  rw [numberAt, List.countP_eq_length]
  intro l hl
  exact decide_eq_true (h.inside l hl)

/-- Once all instructions are placed, only the label of the end may be missing. -/
theorem InOrder.placed (h : InOrder length insns) :
    Waiting (labelsOf length references) (Graph.members (Graph.mark (length + 1) references)) length
        (insns.foldl (place (labelsOf length references) (linesByOffset (length + 1) table))
          ⟨Array.replicate (Graph.members (Graph.mark (length + 1) references)).length .label, #[]⟩) ∧
      Placed (labelsOf length references) (Graph.members (Graph.mark (length + 1) references))
        (linesByOffset (length + 1) table) insns
        (insns.foldl (place (labelsOf length references) (linesByOffset (length + 1) table))
          ⟨Array.replicate (Graph.members (Graph.mark (length + 1) references)).length .label, #[]⟩) := by
  have hwaiting : Waiting (labelsOf length references)
      (Graph.members (Graph.mark (length + 1) references)) 0
      ⟨Array.replicate (Graph.members (Graph.mark (length + 1) references)).length .label, #[]⟩ :=
    ⟨⟨by simp, by simp⟩, Labels.ofOffsets_numbers _ _, by simp, by simp⟩
  have hplaced := (Placed.start (labelsOf length references) _
    (linesByOffset (length + 1) table)).foldl_place hwaiting h.increasing (fun l _ => Nat.zero_le _)
    (by simpa using h.real)
  rw [List.nil_append] at hplaced
  exact ⟨hwaiting.foldl_place (linesByOffset (length + 1) table) h.increasing
    (fun l hl => ⟨Nat.zero_le _, h.inside l hl⟩) (Nat.zero_le _), hplaced⟩

/-- The list of instructions is proper, and holds the blocks with the label of the end behind them. -/
theorem InOrder.listOf_spec (h : InOrder length insns) :
    (listOf length insns references table).Proper ∧
      (listOf length insns references table).insns.toList =
        insns.flatMap (block (labelsOf length references) (linesByOffset (length + 1) table)) ++
          labelAt (labelsOf length references) length ∧
      (∀ i (hi : i < insns.length),
        LeadsTo (labelsOf length references) (listOf length insns references table) insns[i].offset i) ∧
      LeadsTo (labelsOf length references) (listOf length insns references table) length insns.length := by
  obtain ⟨hdone, hplaced⟩ := @InOrder.placed length insns references table h
  obtain ⟨hextends, hend⟩ := extends_placeLabel hplaced.blank hdone.numbers length
  refine ⟨hdone.placeLabel.proper, ?_, fun i hi => (hplaced.leads i hi).extends hextends, ?_⟩
  · rw [← hplaced.insns]
    exact hextends.insns
  · rw [hplaced.ahead_size h.real] at hend
    exact hend

/-- The node of a label is one. -/
theorem InOrder.get_label (h : InOrder length insns) {offset : Nat} {id : NodeId}
    (hid : (labelsOf length references).find? offset = some id) :
    (listOf length insns references table).get id = .label := by
  obtain ⟨hdone, hplaced⟩ := @InOrder.placed length insns references table h
  have hblank := hplaced.blank id.index (hdone.numbers.lt hid)
  have hnodes : ∀ (list : InsnList), (placeLabel (labelsOf length references) list length).nodes = list.nodes := by
    intro list
    unfold placeLabel
    split <;> rfl
  rw [listOf, InsnList.get, hnodes, hblank, Option.getD_some]

theorem InOrder.reals_listOf (h : InOrder length insns) :
    (listOf length insns references table).reals = insns.map (·.link (labelsOf length references)) := by
  rw [InsnList.reals, h.listOf_spec.2.1, List.filter_append, filter_labelAt, filter_blocks h.real,
    List.append_nil]

theorem linesFrom_labelAt (labels : Labels) (offset number : Nat) (rest : List Insn) :
    InsnList.linesFrom number (labelAt labels offset ++ rest) = InsnList.linesFrom number rest := by
  rw [labelAt]
  split_ifs <;> rfl

/-- The lines ahead of the instruction that has the number `l.2`. -/
def linesAt (table : List (Nat × UInt16)) (l : Located × Nat) : List (Nat × UInt16) :=
  (table.filter (·.1 = l.1.offset)).map fun e => (l.2, e.2)

theorem linesFrom_blocks {ls : List Located} (hinside : ∀ l ∈ ls, l.offset < length)
    (hreal : ∀ l ∈ ls, l.insn.isReal = true) (number : Nat) (rest : List Insn) :
    InsnList.linesFrom number (ls.flatMap (block labels (linesByOffset (length + 1) table)) ++ rest) =
      (ls.zipIdx number).flatMap (linesAt table) ++ InsnList.linesFrom (number + ls.length) rest := by
  induction ls generalizing number with
  | nil => rfl
  | cons l ls ih =>
    have hl : (l.link labels).isReal = true := by
      rw [isReal_link]
      exact hreal l List.mem_cons_self
    have hoffset : l.offset < length + 1 := Nat.lt_succ_of_lt (hinside l List.mem_cons_self)
    have hrest := ih (fun l' hl' => hinside l' (List.mem_cons_of_mem _ hl'))
      (fun l' hl' => hreal l' (List.mem_cons_of_mem _ hl')) (number + 1)
    rw [List.flatMap_cons, block]
    simp only [List.append_assoc]
    rw [linesFrom_labelAt, InsnList.linesFrom_lines, List.singleton_append,
      InsnList.linesFrom_of_isReal number hl, hrest, getD_linesByOffset table hoffset, List.map_map,
      List.zipIdx_cons, List.flatMap_cons, List.append_assoc, List.length_cons, Nat.add_comm ls.length 1,
      ← Nat.add_assoc]
    rfl

/-- The lines of a decoded list are those of the table at the offset of each instruction. -/
theorem InOrder.lines_listOf (h : InOrder length insns) :
    (listOf length insns references table).lines = insns.zipIdx.flatMap (linesAt table) := by
  rw [InsnList.lines, h.listOf_spec.2.1, linesFrom_blocks h.inside h.real,
    ← List.append_nil (labelAt _ length), linesFrom_labelAt]
  exact List.append_nil _

/-- The entries with the least key come first. -/
theorem filter_append_filter_ne {α : Type} {table : List (Nat × α)}
    (hsorted : table.Pairwise fun e e' => e.1 ≤ e'.1) {least : Nat} (hleast : ∀ e ∈ table, least ≤ e.1) :
    table.filter (·.1 = least) ++ table.filter (·.1 ≠ least) = table := by
  induction table with
  | nil => rfl
  | cons e table ih =>
    obtain ⟨hfirst, hrest⟩ := List.pairwise_cons.mp hsorted
    have hothers := ih hrest fun e' he' => hleast e' (List.mem_cons_of_mem _ he')
    by_cases heq : e.1 = least
    · rw [List.filter_cons_of_pos (by simpa using heq), List.filter_cons_of_neg (by simpa using heq),
        List.cons_append, hothers]
    · have hlt := hleast e List.mem_cons_self
      have hnone : table.filter (·.1 = least) = [] := by
        refine List.filter_eq_nil_iff.mpr fun e' he' => ?_
        have hle := hfirst e' he'
        simp only [decide_eq_true_eq]
        omega
      rw [hnone, List.nil_append] at hothers
      rw [List.filter_cons_of_neg (by simpa using heq), List.filter_cons_of_pos (by simpa using heq),
        hnone, List.nil_append, hothers]

/-- Lines in order, each at the offset of an instruction, come back in that order. -/
theorem flatMap_linesAt {insns : List Located} (hincreasing : insns.Pairwise fun l l' => l.offset < l'.offset)
    (hsorted : table.Pairwise fun e e' => e.1 ≤ e'.1) (hmem : ∀ e ∈ table, ∃ l ∈ insns, l.offset = e.1)
    (number : Nat) :
    (insns.zipIdx number).flatMap (linesAt table) =
      table.map fun e => (number + numberAt insns e.1, e.2) := by
  induction insns generalizing table number with
  | nil =>
    cases table with
    | nil => rfl
    | cons e table =>
      obtain ⟨l, hl, _⟩ := hmem e List.mem_cons_self
      exact absurd hl List.not_mem_nil
  | cons l ls ih =>
    obtain ⟨hfirst, hrest⟩ := List.pairwise_cons.mp hincreasing
    have hleast : ∀ e ∈ table, l.offset ≤ e.1 := by
      intro e he
      obtain ⟨l', hl', heq⟩ := hmem e he
      rcases List.mem_cons.mp hl' with rfl | hl'
      · exact Nat.le_of_eq heq
      · exact heq ▸ Nat.le_of_lt (hfirst l' hl')
    have hbehind : ∀ e ∈ table.filter (·.1 ≠ l.offset), ∃ l' ∈ ls, l'.offset = e.1 := by
      intro e he
      obtain ⟨he, hne⟩ := List.mem_filter.mp he
      obtain ⟨l', hl', heq⟩ := hmem e he
      rcases List.mem_cons.mp hl' with rfl | hl'
      · exact absurd heq.symm (by simpa using hne)
      · exact ⟨l', hl', heq⟩
    have hothers := ih hrest (hsorted.filter _) hbehind (number + 1)
    have hsame : (ls.zipIdx (number + 1)).flatMap (linesAt table) =
        (ls.zipIdx (number + 1)).flatMap (linesAt (table.filter (·.1 ≠ l.offset))) := by
      refine List.flatMap_congr fun pair hpair => ?_
      have hlt := hfirst pair.1 (List.fst_mem_of_mem_zipIdx hpair)
      rw [linesAt, linesAt, List.filter_filter]
      congr 1
      refine List.filter_congr fun e _ => ?_
      by_cases heq : e.1 = pair.1.offset
      · simp [heq, Nat.ne_of_gt hlt]
      · simp [heq]
    rw [List.zipIdx_cons, List.flatMap_cons, hsame, hothers, linesAt]
    conv_rhs => rw [← filter_append_filter_ne hsorted hleast, List.map_append]
    congr 1
    · refine List.map_congr_left fun e he => ?_
      have heq : e.1 = l.offset := by simpa using (List.mem_filter.mp he).2
      have hnone : numberAt (l :: ls) e.1 = 0 := by
        refine List.countP_eq_zero.mpr fun l' hl' => ?_
        rw [heq]
        rcases List.mem_cons.mp hl' with rfl | hl'
        · simp
        · simpa using Nat.le_of_lt (hfirst l' hl')
      rw [hnone]
      rfl
    · refine List.map_congr_left fun e he => ?_
      obtain ⟨l', hl', heq⟩ := hbehind e he
      have hlt : l.offset < e.1 := heq ▸ hfirst l' hl'
      have hone : numberAt (l :: ls) e.1 = numberAt ls e.1 + 1 :=
        List.countP_cons_of_pos (by simpa using hlt)
      rw [hone, Nat.add_assoc, Nat.add_comm 1]

/-- An offset that is referred to has a label, which stands ahead of the instruction there. -/
theorem InOrder.exists_label (h : InOrder length insns) {offset : Nat} (hmem : offset ∈ references)
    (hboundary : IsBoundary length insns offset) :
    ∃ p < (listOf length insns references table).size,
      (labelsOf length references).find? offset =
        some ((listOf length insns references table).idAt p) ∧
      (listOf length insns references table).ahead p = numberAt insns offset := by
  obtain ⟨_, _, hinsns, hend⟩ := @InOrder.listOf_spec length insns references table h
  have hinside : offset < length + 1 := by
    rcases hboundary with rfl | ⟨l, hl, rfl⟩
    · exact Nat.lt_succ_self _
    · exact Nat.lt_succ_of_lt (h.inside l hl)
  have hmarked : ∀ o ∈ Graph.members (Graph.mark (length + 1) references), o < length + 1 :=
    fun o ho => (mem_members_mark.mp ho).1
  have hlabel := Labels.ofOffsets_isSome hmarked (mem_members_mark.mpr ⟨hinside, hmem⟩)
  obtain ⟨id, hid⟩ := Option.isSome_iff_exists.mp hlabel
  have hleads : LeadsTo (labelsOf length references) (listOf length insns references table) offset
      (numberAt insns offset) := by
    rcases hboundary with rfl | ⟨l, hl, rfl⟩
    · rw [h.numberAt_length]
      exact hend
    · obtain ⟨i, hi, rfl⟩ := List.getElem_of_mem hl
      rw [h.numberAt_getElem hi]
      exact hinsns i hi
  obtain ⟨p, hp, rfl, hahead⟩ := hleads id hid
  exact ⟨p, hp, hid, hahead⟩

/-- The label of an offset leads to the instruction there. -/
theorem InOrder.leadsTo?_listOf (h : InOrder length insns) {offset : Nat} (hmem : offset ∈ references)
    (hboundary : IsBoundary length insns offset) :
    (listOf length insns references table).leadsTo? ((labelsOf length references).find offset) =
      some (numberAt insns offset) := by
  obtain ⟨p, hp, hfind, hahead⟩ := @InOrder.exists_label length insns references table h offset hmem hboundary
  have hproper := (@InOrder.listOf_spec length insns references table h).1
  rw [Labels.find, hfind, Option.getD_some, InsnList.leadsTo?, hproper.find?_idAt hp, Option.map_some, hahead]

end

end Code

end DirectCall
