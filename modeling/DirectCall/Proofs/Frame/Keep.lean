import DirectCall.Proofs.Frame.Holds
import DirectCall.Proofs.Frame.Simulate

/-!
# Values that instructions keep to

A property of values holds in all slots from the entry on if the method starts with such values and the
operations of the domain make no others (`Domain.KeepsAt`): executing an instruction only moves, drops and
replaces values (`execute_all`). That is simulation of the domain by itself, with equality as the relation.
-/

namespace DirectCall

variable {V : Type}

/-- For one instruction the operations of a domain keep to values with a property. -/
structure Domain.KeepsAt (d : Domain V) (P : V → Prop) (id : NodeId) (insn : Insn) : Prop where
  unset : P (d.ofDescriptor none)
  produce : P (d.produce id insn)
  copy : ∀ v, P v → P (d.copy id insn v)
  unary : ∀ v, P v → P (d.unary id insn v)
  binary : ∀ v w, P v → P w → P (d.binary id insn v w)
  nary : ∀ vs, (∀ v ∈ vs, P v) → P (d.nary id insn vs)
  refine : ∀ vs, (∀ v ∈ vs, P v) → ∀ change ∈ d.refine id insn vs, P change.2

namespace Frame

variable {d : Domain V} {P : V → Prop} {id : NodeId} {insn : Insn} {f g : Frame V}

theorem forall₂_eq_and {vs ws : List V} :
    List.Forall₂ (fun v w => v = w ∧ P v) vs ws ↔ vs = ws ∧ ∀ v ∈ vs, P v := by
  constructor
  · intro h
    induction h with
    | nil => exact ⟨rfl, nofun⟩
    | cons hhead _ ih => exact ⟨by rw [hhead.1, ih.1], List.forall_mem_cons.mpr ⟨hhead.2, ih.2⟩⟩
  · rintro ⟨rfl, h⟩
    exact List.forall₂_same.mpr fun v hv => ⟨rfl, h v hv⟩

theorem All.rel (h : f.All P) : f.Rel (fun v w => v = w ∧ P v) f := by
  rw [all_iff] at h
  exact ⟨forall₂_eq_and.mpr ⟨rfl, fun v hv => h.1 v (Array.mem_toList_iff.mp hv)⟩,
    forall₂_eq_and.mpr ⟨rfl, h.2⟩⟩

theorem Rel.all (h : f.Rel (fun v w => v = w ∧ P v) g) : f.All P :=
  all_iff.mpr ⟨fun v hv => (forall₂_eq_and.mp h.locals).2 v (Array.mem_toList_iff.mpr hv),
    (forall₂_eq_and.mp h.stack).2⟩

theorem simAt_of_keepsAt (h : d.KeepsAt P id insn) : d.SimAt d (fun v w => v = w ∧ P v) id insn where
  unset := ⟨rfl, h.unset⟩
  produce := ⟨rfl, h.produce⟩
  copy := by
    rintro v _ ⟨rfl, hv⟩
    exact ⟨rfl, h.copy v hv⟩
  copySize := by
    rintro v _ ⟨rfl, _⟩ _
    rfl
  unary := by
    rintro v _ ⟨rfl, hv⟩
    exact ⟨rfl, h.unary v hv⟩
  increment := by
    rintro _ _ _ v _ ⟨rfl, _⟩
    rfl
  binary := by
    rintro v v' _ _ ⟨rfl, hv⟩ ⟨rfl, hv'⟩
    exact ⟨rfl, h.binary v v' hv hv'⟩
  nary := by
    intro vs ws hall
    obtain ⟨rfl, hvs⟩ := forall₂_eq_and.mp hall
    exact ⟨rfl, h.nary vs hvs⟩

theorem step_all (h : d.KeepsAt P id insn) (hf : f.All P) {code : UInt8} {s : Step V}
    (hs : f.step d id insn code = .ok s) : (∀ v ∈ s.1, P v) ∧ s.2.All P := by
  have hwidths : SameWidths d d f f := rel_refl (R := fun v w => d.size v = d.size w) (fun _ => rfl) f
  obtain ⟨_, _, hconsumed, hleft⟩ := step_simAt (simAt_of_keepsAt h) hf.rel (fun _ => hwidths) hs
  exact ⟨(forall₂_eq_and.mp hconsumed).2, hleft.all⟩

variable [DecidableEq V]

theorem All.replaceAll (hf : f.All P) {changes : List (V × V)} (h : ∀ change ∈ changes, P change.2) :
    (f.replaceAll changes).All P := by
  induction changes generalizing f with
  | nil => exact hf
  | cons change rest ih =>
    rw [List.forall_mem_cons] at h
    refine ih ?_ h.2
    have hput : ∀ v, P v → P (if v = change.1 then change.2 else v) := by
      intro v hv
      split_ifs
      · exact h.1
      · exact hv
    rw [all_iff] at hf ⊢
    refine ⟨fun v hv => ?_, fun v hv => ?_⟩
    · obtain ⟨w, hw, rfl⟩ := Array.mem_map.mp hv
      exact hput w (hf.1 w hw)
    · obtain ⟨w, hw, rfl⟩ := List.mem_map.mp hv
      exact hput w (hf.2 w hw)

theorem execute_all (h : insn.opcode?.isSome = true → d.KeepsAt P id insn) (hf : f.All P)
    (hg : f.execute d id insn = .ok g) : g.All P := by
  unfold execute at hg
  split at hg
  · obtain rfl := Except.ok.inj hg
    exact hf
  · rename_i code hcode
    obtain ⟨s, hs, hg⟩ := bind_eq_ok.mp hg
    obtain rfl := Except.ok.inj hg
    have hkeeps := h (by rw [hcode, Option.isSome_some])
    obtain ⟨hconsumed, hleft⟩ := step_all hkeeps hf hs
    exact hleft.replaceAll (hkeeps.refine _ hconsumed)

theorem keepsAll_of_keepsAt {flow : Flow}
    (h : ∀ position < flow.size, (flow.insnAt position).opcode?.isSome = true →
      d.KeepsAt P (flow.idAt position) (flow.insnAt position))
    (hexception : ∀ position, ∀ edge ∈ flow.handlersAt position, P (d.exception edge.catchType)) :
    KeepsAll d flow P :=
  ⟨fun position hposition _ _ => execute_all (h position hposition), hexception⟩

omit [DecidableEq V] in
theorem setParams_all {params : List String} (hparams : ∀ p ∈ params, P (d.ofDescriptor (some p)))
    {locals : Array V} (hlocals : ∀ v ∈ locals, P v) (slot : Nat) :
    ∀ v ∈ setParams d locals slot params, P v := by
  induction params generalizing locals slot with
  | nil => exact hlocals
  | cons param rest ih =>
    rw [List.forall_mem_cons] at hparams
    refine ih hparams.2 (fun v hv => ?_) _
    rcases Array.mem_or_eq_of_mem_setIfInBounds hv with hv | rfl
    · exact hlocals v hv
    · exact hparams.1

omit [DecidableEq V] in
/-- The frame in which a method starts holds unset locals, parameters and the receiver. -/
theorem entry_all {m : MethodSig} {maxLocals : UInt16} {entry : Frame V} (hunset : P (d.ofDescriptor none))
    (hreceiver : P (d.receiver m)) (hparams : ∀ parsed, MethodDescriptor.parse m.descriptor = .ok parsed →
      ∀ p ∈ parsed.params, P (d.ofDescriptor (some p)))
    (h : Frame.entry d m maxLocals = .ok entry) : entry.All P := by
  unfold Frame.entry at h
  split at h
  · simp at h
  · rename_i parsed hparsed
    have hfresh : ∀ v ∈ Array.replicate (max maxLocals.toNat (entrySlots m parsed)) (d.ofDescriptor none),
        P v := by
      intro v hv
      rw [(Array.mem_replicate.mp hv).2]
      exact hunset
    dsimp only at h
    split_ifs at h
    · obtain rfl := Except.ok.inj h
      exact all_iff.mpr ⟨setParams_all (hparams parsed hparsed) hfresh 0, nofun⟩
    · obtain rfl := Except.ok.inj h
      refine all_iff.mpr ⟨setParams_all (hparams parsed hparsed) (fun v hv => ?_) 1, nofun⟩
      rcases Array.mem_or_eq_of_mem_setIfInBounds hv with hv | rfl
      · exact hfresh v hv
      · exact hreceiver

end Frame

end DirectCall
