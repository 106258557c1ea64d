import DirectCall.Proofs.Code.Rule
import DirectCall.Proofs.Constants.Cover
import DirectCall.Proofs.Sources.Cover

/-!
# Widths of values

In both analyses the width of a value that an instruction makes depends on the instruction alone
(`SourceValue.measured`, `ConstantValue.measured`). So an instruction leaves the same widths in both
(`Domain.Measured.sim`), and what it does that writes no local it does on top of any other stack (`step_onto`).
-/

namespace DirectCall

variable {V W : Type}

/-- How wide a value is that an instruction makes depends on the instruction alone. Copies, joins and refinements
keep widths. -/
structure Domain.Measured (d : Domain V) : Prop where
  ofDescriptor : ∀ t, d.size (d.ofDescriptor t) = Descriptor.size t
  receiver : ∀ m, d.size (d.receiver m) = 1
  exception : ∀ catchType, d.size (d.exception catchType) = 1
  produce : ∀ id insn, d.size (d.produce id insn) = Descriptor.size insn.result?
  copy : ∀ id insn v, d.size (d.copy id insn v) = d.size v
  unary : ∀ id insn v, d.size (d.unary id insn v) = Descriptor.size insn.result?
  binary : ∀ id insn v w, d.size (d.binary id insn v w) = Descriptor.size insn.result?
  nary : ∀ id insn vs, d.size (d.nary id insn vs) = Descriptor.size insn.result?
  join : ∀ v w, d.size v = d.size w → d.size (d.join v w) = d.size v
  refine : ∀ id insn vs, ∀ change ∈ d.refine id insn vs, d.size change.1 = d.size change.2

theorem SourceValue.measured (size : Nat) : (SourceValue.domain size).Measured where
  ofDescriptor _ := rfl
  receiver m := Descriptor.size_ofClassName m.owner
  exception _ := rfl
  produce _ _ := rfl
  copy _ _ _ := rfl
  unary _ _ _ := rfl
  binary _ _ _ _ := rfl
  nary _ _ _ := rfl
  join _ _ _ := rfl
  refine _ _ _ := nofun

theorem Opcode.size_iconst : ∀ code : UInt8, between iconstM1 iconst5 code = true →
    Descriptor.size (result? code) = 1 := by
  apply Code.forall_byte
  decide +kernel

namespace ConstantValue

theorem size_cases (v : ConstantValue) : v.size = 1 ∨ v.size = 2 := by
  cases v with
  | unknown width => cases width <;> simp [size, Width.slots]
  | _ => exact .inl rfl

theorem size_produce (id : NodeId) (insn : Insn) : (produce id insn).size = Descriptor.size insn.result? := by
  unfold produce
  split
  · rename_i code
    split_ifs with hconst
    · exact (Opcode.size_iconst code hconst).symm
    · exact size_ofDescriptor _
  · rfl
  · rfl
  · rfl
  · rfl
  · rename_i code index member
    cases hfield : ofStaticField member with
    | none => exact size_ofDescriptor _
    | some value =>
      dsimp only
      split_ifs with hcode
      · unfold ofStaticField at hfield
        split_ifs at hfield with htype
        obtain rfl := Option.some.inj hfield
        rw [Insn.result?, if_pos (.inl hcode), htype.2.1]
        rfl
      · exact size_ofDescriptor _
  · exact size_ofDescriptor _

theorem size_join {v w : ConstantValue} (h : v.size = w.size) : (join v w).size = v.size := by
  unfold join
  split_ifs with heq hwide
  · rfl
  · exact hwide.1.symm
  · rcases size_cases v with hv | hv
    · exact hv.symm
    · exact absurd ⟨hv, h ▸ hv⟩ hwide

theorem measured : domain.Measured where
  ofDescriptor t := by
    cases t with
    | none => rfl
    | some t => exact size_ofDescriptor (some t)
  receiver m := (size_ofDescriptor _).trans (Descriptor.size_ofClassName m.owner)
  exception _ := rfl
  produce := size_produce
  copy _ _ _ := rfl
  unary := size_unary
  binary _ insn _ _ := size_ofDescriptor insn.result?
  nary := size_nary
  join _ _ := size_join
  refine := size_refine

end ConstantValue

namespace Domain.Measured

variable {d : Domain V} {e : Domain W}

theorem sim (hd : d.Measured) (he : e.Measured) : d.Sim e fun v w => d.size v = e.size w where
  unset := (hd.ofDescriptor none).trans (he.ofDescriptor none).symm
  exception t := (hd.exception t).trans (he.exception t).symm
  produce id insn := (hd.produce id insn).trans (he.produce id insn).symm
  copy id insn v w h := by rw [hd.copy, he.copy, h]
  copySize id insn v w h := by rw [hd.copy, he.copy, h]
  unary id insn v w _ := (hd.unary id insn v).trans (he.unary id insn w).symm
  increment id var delta v w _ := (hd.unary id _ v).trans (he.unary id _ w).symm
  binary id insn v v' w w' _ _ := (hd.binary id insn v v').trans (he.binary id insn w w').symm
  nary id insn vs ws _ := (hd.nary id insn vs).trans (he.nary id insn ws).symm

end Domain.Measured

namespace Frame

/-- Widths of the slots of a frame, locals and stack apart. -/
theorem forall₂_width {d : Domain V} {e : Domain W} {vs : List V} {ws : List W} :
    List.Forall₂ (fun v w => d.size v = e.size w) vs ws ↔ vs.map d.size = ws.map e.size := by
  rw [← List.forall₂_eq_eq_eq, List.forall₂_map_left_iff, List.forall₂_map_right_iff]

section Refine

variable [DecidableEq V] {d : Domain V} {id : NodeId} {insn : Insn} {code : UInt8} {f : Frame V}

theorem replaceAll_sameWidths {changes : List (V × V)}
    (h : ∀ change ∈ changes, d.size change.1 = d.size change.2) (f : Frame V) :
    SameWidths d d f (f.replaceAll changes) := by
  induction changes generalizing f with
  | nil => exact rel_refl (R := fun v w => d.size v = d.size w) (fun _ => rfl) f
  | cons change rest ih =>
    rw [List.forall_mem_cons] at h
    have hput : ∀ v : V, d.size v = d.size (if v = change.1 then change.2 else v) := by
      intro v
      split_ifs with heq
      · rw [heq, h.1]
      · rfl
    have hfirst : SameWidths d d f (f.replace change.1 change.2) := by
      constructor
      · rw [replace, Array.toList_map, List.forall₂_map_right_iff, List.forall₂_same]
        exact fun v _ => hput v
      · rw [replace, List.forall₂_map_right_iff, List.forall₂_same]
        exact fun v _ => hput v
    exact Rel.trans (fun _ _ _ huv hvw => huv.trans hvw) hfirst (ih h.2 (f.replace change.1 change.2))

/-- An instruction leaves the widths that its opcode leaves. -/
theorem execute_of_step_widths (hd : d.Measured) (hcode : insn.opcode? = some code) {s : Step V}
    (h : f.step d id insn code = .ok s) :
    ∃ g, f.execute d id insn = .ok g ∧ SameWidths d d s.2 g := by
  refine ⟨s.2.replaceAll (d.refine id insn s.1), ?_, replaceAll_sameWidths (hd.refine id insn s.1) s.2⟩
  simp only [execute, hcode, h, bind, Except.bind]
  rfl

end Refine

/-! ## Code on top of other stacks -/

section Onto

variable {d : Domain V} {id : NodeId} {insn : Insn} {code : UInt8}

theorem shuffle_onto {kind : Shuffle} {size : V → Nat} {copy : V → V} {top moved left : List V}
    (h : kind.run size copy top = some (moved, left)) (rest : List V) :
    kind.run size copy (top ++ rest) = some (moved, left ++ rest) := by
  unfold Shuffle.run at h ⊢
  split at h
  all_goals repeat' split at h
  all_goals simp only [Option.some.injEq, Prod.mk.injEq, reduceCtorEq] at h
  all_goals
    obtain ⟨rfl, rfl⟩ := h
    simp [*]

/-- What an instruction does that writes no local it does on top of any stack, whatever the other locals are. -/
theorem step_onto (hstore : Opcode.effect code ≠ .store) (hincrement : Opcode.effect code ≠ .increment)
    {locals : Array V} {top : List V} {s : Step V} (h : step d id insn code ⟨locals, top⟩ = .ok s)
    {locals' : Array V} (hlocals : Opcode.effect code = .load → ∀ var, localOperand insn = .ok var →
      locals'[var]? = locals[var]?) (rest : List V) :
    step d id insn code ⟨locals', top ++ rest⟩ = .ok (s.1, ⟨locals', s.2.stack ++ rest⟩) := by
  have hpop : ∀ {count : Nat} {s : Step V}, pop ⟨locals, top⟩ count = .ok s →
      pop ⟨locals', top ++ rest⟩ count = .ok (s.1, ⟨locals', s.2.stack ++ rest⟩) := by
    intro count s h
    obtain ⟨hcount, hoperands, hleft⟩ := pop_eq_ok.mp h
    rw [hoperands, hleft]
    refine pop_eq_ok.mpr ⟨by simp only [List.length_append]; exact Nat.le_add_right_of_le hcount, ?_, ?_⟩
    · rw [List.take_append_of_le_length hcount]
    · rw [List.drop_append_of_le_length hcount]
  have hpush : ∀ (stack : List V) (pushes : Bool) (v : V), pushIf ⟨locals', stack ++ rest⟩ pushes v =
      ⟨locals', (pushIf ⟨locals, stack⟩ pushes v).stack ++ rest⟩ := by
    intro stack pushes v
    cases pushes <;> rfl
  have hnary : ∀ {count : Nat} {pushes : Bool} {s : Step V}, stepNary d id insn count pushes ⟨locals, top⟩ = .ok s →
      stepNary d id insn count pushes ⟨locals', top ++ rest⟩ = .ok (s.1, ⟨locals', s.2.stack ++ rest⟩) := by
    intro count pushes s h
    obtain ⟨hcount, rfl⟩ := stepNary_eq_ok.mp h
    refine stepNary_eq_ok.mpr ⟨by simp only [List.length_append]; exact Nat.le_add_right_of_le hcount, ?_⟩
    rw [List.take_append_of_le_length hcount, List.drop_append_of_le_length hcount, hpush]
  unfold step at h ⊢
  cases heffect : Opcode.effect code with
  | nothing | produce =>
    rw [heffect] at h
    obtain rfl := Except.ok.inj h
    rfl
  | load =>
    rw [heffect] at h
    obtain ⟨var, hvar, h⟩ := bind_eq_ok.mp h
    obtain ⟨v, hv, h⟩ := bind_eq_ok.mp h
    obtain rfl := Except.ok.inj h
    rw [getLocal_eq_ok] at hv
    refine bind_eq_ok.mpr ⟨var, hvar, bind_eq_ok.mpr ⟨v, getLocal_eq_ok.mpr ?_, rfl⟩⟩
    rw [← hv]
    exact hlocals heffect var hvar
  | store => exact absurd heffect hstore
  | increment => exact absurd heffect hincrement
  | storeElement | pop =>
    rw [heffect] at h
    exact hpop h
  | pop2 =>
    rw [heffect] at h
    rcases stepPop2_eq_ok.mp h with ⟨a, b, below, hstack, hsize, rfl⟩ | ⟨a, below, hstack, hsize, rfl⟩
    · exact stepPop2_eq_ok.mpr (.inl ⟨a, b, below ++ rest, congrArg (· ++ rest) hstack, hsize, rfl⟩)
    · exact stepPop2_eq_ok.mpr (.inr ⟨a, below ++ rest, congrArg (· ++ rest) hstack, hsize, rfl⟩)
  | shuffle kind =>
    rw [heffect] at h
    obtain ⟨moved, stack, hrun, rfl⟩ := stepShuffle_eq_ok.mp h
    exact stepShuffle_eq_ok.mpr ⟨moved, stack ++ rest, shuffle_onto hrun rest, rfl⟩
  | binary pushes =>
    rw [heffect] at h
    obtain ⟨a, b, below, hstack, rfl⟩ := stepBinary_eq_ok.mp h
    exact stepBinary_eq_ok.mpr ⟨a, b, below ++ rest, congrArg (· ++ rest) hstack, by rw [hpush]⟩
  | unary pushes =>
    rw [heffect] at h
    obtain ⟨a, below, hstack, rfl⟩ := stepUnary_eq_ok.mp h
    exact stepUnary_eq_ok.mpr ⟨a, below ++ rest, congrArg (· ++ rest) hstack, by rw [hpush]⟩
  | call =>
    rw [heffect] at h
    obtain ⟨shape, hshape, h⟩ := bind_eq_ok.mp h
    exact bind_eq_ok.mpr ⟨shape, hshape, hnary h⟩
  | newMultiArray =>
    simp only [heffect] at h ⊢
    split at h
    · exact hnary h
    · cases h
  | subroutine | unsupported =>
    rw [heffect] at h
    cases h

end Onto

end Frame

end DirectCall
