import DirectCall.Proofs.Constants.Rank
import DirectCall.Proofs.Sources.Order
import DirectCall.Proofs.Verification.Rank
import DirectCall.Proofs.Verification.Typing

/-!
# The analyses that the solver carries out

Constants, producers and verification types are found by one solver. Each of these analyses ends for every
method and body, that of types provided that no type is a supertype of itself; the constants and the
producers that it ends with are a fixpoint (`analyses_end`). Instructions need not be monotone for that: the
joins alone make it so.
-/

namespace DirectCall.Frame

open Relation
open Hierarchy (freeze)

theorem analyses_end (m : MethodSig) (body : Body) :
    Ends ConstantValue.domain m body ∧ Ends (SourceValue.domain body.insns.nodes.size) m body ∧
      (∀ table : ClassTable, (∀ name, ¬ TransGen table.Link name name) →
        Ends (VerificationType.domain (freeze table) m) m body) ∧
      (∀ frames, analyze ConstantValue.domain m body = .ok frames →
        ∃ flow entry, Flow.ofBody body = .ok flow ∧
          Frame.entry ConstantValue.domain m body.maxLocals = .ok entry ∧
            Stable ConstantValue.domain flow entry frames) ∧
      ∀ frames, analyze (SourceValue.domain body.insns.nodes.size) m body = .ok frames →
        ∃ flow entry, Flow.ofBody body = .ok flow ∧
          Frame.entry (SourceValue.domain body.insns.nodes.size) m body.maxLocals = .ok entry ∧
            Stable (SourceValue.domain body.insns.nodes.size) flow entry frames :=
  ⟨ConstantValue.ends m body, SourceValue.ends m body,
    fun _ hacyclic => VerificationType.ends hacyclic m body, fun _ => ConstantValue.stable,
    fun _ => SourceValue.stable⟩

/-- A loop in which an array of numbers meets an array of arrays. -/
theorem arrays_end : (∀ name, ¬ TransGen ClassTable.shapes.Link name name) ∧
    Ends (VerificationType.domain (freeze ClassTable.shapes) StackMap.arraysSig) StackMap.arraysSig
      StackMap.arraysBody ∧
      ∃ frames flow entry, analyze ConstantValue.domain StackMap.arraysSig StackMap.arraysBody = .ok frames ∧
        Flow.ofBody StackMap.arraysBody = .ok flow ∧ Stable ConstantValue.domain flow entry frames := by
  obtain ⟨_, _, htypes, hconstants, _⟩ := analyses_end StackMap.arraysSig StackMap.arraysBody
  have hacyclic := ClassTable.shapes_regular.acyclic
  have hframes : (analyze ConstantValue.domain StackMap.arraysSig StackMap.arraysBody).toOption.isSome =
      true := by
    decide +kernel
  obtain ⟨flow, entry, hflow, _, hstable⟩ := hconstants _ (eq_ok_get hframes)
  exact ⟨hacyclic, htypes ClassTable.shapes hacyclic, _, flow, entry, eq_ok_get hframes, hflow, hstable⟩

end DirectCall.Frame
