import DirectCall.Proofs.Code.Spelling
import DirectCall.Proofs.InsnList.Proper

/-!
# Decoded bodies are proper

Instructions are read at increasing offsets (`located_increasing`), and no two offsets have the same
label. So every label gets one place at most, and the list of a decoded body is proper
(`Body.decode_proper`).
-/

namespace DirectCall.Code

/-! ## Offsets -/

/-- Instructions that are spelt in a row have increasing offsets, all of them inside the bytes. -/
theorem Row.increasing {pool : ConstantPool} {start : Nat} {ls : List Located} {bytes : List UInt8}
    (h : Row (Spells pool) start ls bytes) :
    ls.Pairwise (fun l l' => l.offset < l'.offset) ∧
      ∀ l ∈ ls, start ≤ l.offset ∧ l.offset < start + bytes.length := by
  induction h with
  | nil => exact ⟨.nil, fun l hl => absurd hl List.not_mem_nil⟩
  | cons first _ ih =>
    obtain ⟨hincreasing, hinside⟩ := ih
    have hoffset := first.offset_eq
    have hpos := first.readsAs.length_pos
    rw [List.length_append]
    refine ⟨List.pairwise_cons.mpr ⟨fun l hl => ?_, hincreasing⟩, fun l hl => ?_⟩
    · have hbound := hinside l hl
      omega
    · rcases List.mem_cons.mp hl with rfl | hl
      · omega
      · have hbound := hinside l hl
        omega

/-- Instructions are read at increasing offsets, all of them inside the code. -/
theorem located_increasing {pool : ConstantPool} {code : List UInt8} {insns : List Located}
    (h : located pool code = .ok insns) :
    insns.Pairwise (fun l l' => l.offset < l'.offset) ∧ ∀ l ∈ insns, l.offset < code.length := by
  obtain ⟨hincreasing, hinside⟩ := (located_iff.mp h).increasing
  refine ⟨hincreasing, fun l hl => ?_⟩
  have hbound := (hinside l hl).2
  omega

/-! ## Labels -/

/-- Labels are numbered by the places of their offsets in a list. -/
def Labels.Numbers (labels : Labels) (offsets : List Nat) : Prop :=
  ∀ offset id, labels.find? offset = some id → offsets[id.index]? = some offset

theorem Labels.ofOffsets_numbers (size : Nat) (offsets : List Nat) :
    (Labels.ofOffsets size offsets).Numbers offsets := by
  intro offset id h
  have hfold : ∀ (pairs : List (Nat × Nat)) (nodes : Array (Option NodeId)),
      (pairs.foldl (fun nodes pair => nodes.setIfInBounds pair.1 (some ⟨pair.2⟩)) nodes).getD
        offset none = some id → nodes.getD offset none = some id ∨ (offset, id.index) ∈ pairs := by
    intro pairs
    induction pairs with
    | nil => exact fun _ h => .inl h
    | cons first rest ih =>
      obtain ⟨o, n⟩ := first
      intro nodes h
      rcases ih _ h with hset | hmem
      · simp only [Array.getD_eq_getD_getElem?, Array.getElem?_setIfInBounds] at hset ⊢
        split_ifs at hset with heq hinside
        · rw [Option.getD_some, Option.some.injEq] at hset
          exact .inr (by simp [← hset, heq])
        · simp at hset
        · exact .inl hset
      · exact .inr (List.mem_cons_of_mem _ hmem)
  rcases hfold _ _ h with hnone | hmem
  · rw [Array.getD_eq_getD_getElem?, Array.getElem?_replicate] at hnone
    split_ifs at hnone
    · simp at hnone
    · simp at hnone
  · obtain ⟨n, hn, hpair⟩ := List.mem_iff_getElem.mp hmem
    simp only [List.getElem_zip, List.getElem_range, Prod.mk.injEq] at hpair
    obtain ⟨hoffset, rfl⟩ := hpair
    rw [List.length_zip, List.length_range, Nat.min_self] at hn
    rw [List.getElem?_eq_getElem hn, hoffset]

section Labels

variable {labels : Labels} {offsets : List Nat} {bound : Nat} {list : InsnList}

theorem Labels.Numbers.eq (h : labels.Numbers offsets) {offset offset' : Nat} {id : NodeId}
    (hid : labels.find? offset = some id) (hid' : labels.find? offset' = some id) :
    offset = offset' :=
  Option.some.inj ((h offset id hid).symm.trans (h offset' id hid'))

theorem Labels.Numbers.lt (h : labels.Numbers offsets) {offset : Nat} {id : NodeId}
    (hid : labels.find? offset = some id) : id.index < offsets.length :=
  (List.getElem?_eq_some_iff.mp (h offset id hid)).1

/-- The first nodes are the labels, and those of offsets from `bound` on have no place yet. -/
structure Waiting (labels : Labels) (offsets : List Nat) (bound : Nat) (list : InsnList) : Prop where
  proper : list.Proper
  numbers : labels.Numbers offsets
  room : offsets.length ≤ list.nodes.size
  absent : ∀ offset id, bound ≤ offset → labels.find? offset = some id → id ∉ list.order

namespace Waiting

theorem mono (h : Waiting labels offsets bound list) {bound' : Nat} (hle : bound ≤ bound') :
    Waiting labels offsets bound' list :=
  ⟨h.proper, h.numbers, h.room, fun offset id hbound => h.absent offset id (Nat.le_trans hle hbound)⟩

theorem push (h : Waiting labels offsets bound list) (insn : Insn) :
    Waiting labels offsets bound (list.push insn).1 := by
  refine ⟨h.proper.push insn, h.numbers, ?_, fun offset id hbound hid hmem => ?_⟩
  · have := h.room
    simp only [InsnList.push, InsnList.create, InsnList.append, Array.size_push]
    omega
  · rcases Array.mem_push.mp hmem with hmem | rfl
    · exact h.absent offset id hbound hid hmem
    · have hlt := h.numbers.lt hid
      have hle := h.room
      simp only at hlt
      omega

theorem placeLabel {offset : Nat} (h : Waiting labels offsets offset list) :
    Waiting labels offsets (offset + 1) (placeLabel labels list offset) := by
  unfold Code.placeLabel
  cases hfind : labels.find? offset with
  | none => exact h.mono (Nat.le_succ offset)
  | some id =>
    have howned := Nat.lt_of_lt_of_le (h.numbers.lt hfind) h.room
    refine ⟨h.proper.append (h.absent offset id (Nat.le_refl _) hfind) howned, h.numbers, h.room,
      fun offset' id' hle hid' hmem => ?_⟩
    rcases Array.mem_push.mp hmem with hmem | rfl
    · exact h.absent offset' id' (Nat.le_of_succ_le hle) hid' hmem
    · have := h.numbers.eq hfind hid'
      omega

theorem place (lines : Array (List UInt16)) {l : Located}
    (h : Waiting labels offsets l.offset list) :
    Waiting labels offsets (l.offset + 1) (place labels lines list l) := by
  have hlines : ∀ (marks : List UInt16) (list : InsnList), Waiting labels offsets (l.offset + 1) list →
      Waiting labels offsets (l.offset + 1)
        (marks.foldl (fun list line => (list.push (.line line)).1) list) := by
    intro marks
    induction marks with
    | nil => exact fun _ h => h
    | cons first rest ih => exact fun list h => ih _ (h.push _)
  exact (hlines _ _ h.placeLabel).push _

theorem foldl_place (lines : Array (List UInt16)) {insns : List Located} {length : Nat}
    (hinsns : insns.Pairwise fun l l' => l.offset < l'.offset)
    (hbounds : ∀ l ∈ insns, bound ≤ l.offset ∧ l.offset < length) (hle : bound ≤ length)
    (h : Waiting labels offsets bound list) :
    Waiting labels offsets length (insns.foldl (Code.place labels lines) list) := by
  induction insns generalizing list bound with
  | nil => exact h.mono hle
  | cons first rest ih =>
    obtain ⟨hfirst, hrest⟩ := List.pairwise_cons.mp hinsns
    obtain ⟨hbound, hlength⟩ := hbounds first (by simp)
    refine ih hrest (fun l hl => ?_) hlength ((h.mono hbound).place lines)
    exact ⟨hfirst l hl, (hbounds l (List.mem_cons_of_mem _ hl)).2⟩

end Waiting

end Labels

end DirectCall.Code

namespace DirectCall

open Code

/-- The list of a body that was read is proper. -/
theorem Body.decode_proper {pool : ConstantPool} {code : CodeAttribute} {body : Body}
    (h : Body.decode pool code = .ok body) : body.insns.Proper := by
  unfold decode at h
  obtain ⟨insns, hinsns, h⟩ := bind_eq_ok.mp h
  obtain ⟨tables, _, h⟩ := bind_eq_ok.mp h
  obtain ⟨hincreasing, hinside⟩ := located_increasing hinsns
  dsimp only at h
  split at h
  · cases h
  · obtain ⟨regions, _, h⟩ := bind_eq_ok.mp h
    cases h
    have hstart : ∀ size offsets, Waiting (Labels.ofOffsets size offsets) offsets 0
        ⟨Array.replicate offsets.length .label, #[]⟩ := fun size offsets =>
      ⟨⟨by simp, by simp⟩, Labels.ofOffsets_numbers size offsets, by simp, by simp⟩
    have hbounds : ∀ l ∈ insns, 0 ≤ l.offset ∧ l.offset < code.code.length :=
      fun l hl => ⟨Nat.zero_le _, hinside l hl⟩
    exact ((hstart _ _).foldl_place _ hincreasing hbounds (Nat.zero_le _)).placeLabel.proper

end DirectCall
