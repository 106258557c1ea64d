import DirectCall.Proofs.Constants.Cover
import DirectCall.Proofs.Frame.Arrive

/-!
# Arrays that a call may change

An array that is handed to a call is forgotten behind the call. The handlers that cover the call start
in the frame ahead of it, in which a local may hold the array still. So the array is forgotten there
exactly if something else arrives at the handler as well (`forgetsEscaped_iff`).
-/

namespace DirectCall

namespace ConstantValue

/-- The value is an array that the allocation made. -/
def MadeAt (site : NodeId) : ConstantValue → Prop
  | array made _ _ _ => made = some site
  | _ => False

/-- Only values without a content of their own are made by a join of different ones. -/
theorem firm_of_ne_unknown {v : ConstantValue} (h : ∀ width, v ≠ .unknown width) : domain.Firm v := by
  intro x y
  show join x y = v ↔ x = v ∧ y = v
  unfold join
  split_ifs with heq hwide
  · simp [heq]
  · refine ⟨fun hv => absurd hv.symm (h _), ?_⟩
    rintro ⟨rfl, rfl⟩
    exact absurd rfl heq
  · refine ⟨fun hv => absurd hv.symm (h _), ?_⟩
    rintro ⟨rfl, rfl⟩
    exact absurd rfl heq

theorem MadeAt.firm {site : NodeId} {v : ConstantValue} (h : v.MadeAt site) : domain.Firm v :=
  firm_of_ne_unknown fun width hv => by simp [hv, MadeAt] at h

/-- A call that is reached consumes an array that the allocation made. -/
def HandsOver (flow : Flow) (frames : Frame.Frames ConstantValue) (position : Nat) (site : NodeId) :
    Prop :=
  ∃ known code operands below, frames.getD position none = some known ∧
    (flow.insnAt position).opcode? = some code ∧
    Opcode.between Opcode.invokevirtual Opcode.invokedynamic code = true ∧
    known.step domain (flow.idAt position) (flow.insnAt position) code = .ok (operands, below) ∧
    ∃ v ∈ operands, v.MadeAt site

end ConstantValue

open ConstantValue

/-- No local of a handler holds an array that a call covered by the handler was given. -/
def ForgetsEscaped (body : Body) (frames : Frame.Frames ConstantValue) : Prop :=
  ∀ flow position site edge caught, Flow.ofBody body = .ok flow → HandsOver flow frames position site →
    edge ∈ flow.handlersAt position → frames.getD edge.handler none = some caught →
      ∀ (k : Nat) v, caught.locals[k]? = some v → ¬ v.MadeAt site

/-- Where a local still holds an array that a call is given, some frame that arrives at the handler has
another value in this local. -/
def EscapedMeetsOther (m : MethodSig) (body : Body) (frames : Frame.Frames ConstantValue) : Prop :=
  ∀ flow entry position site edge known, Flow.ofBody body = .ok flow →
    Frame.entry domain m body.maxLocals = .ok entry → HandsOver flow frames position site →
    edge ∈ flow.handlersAt position → frames.getD position none = some known →
      ∀ (k : Nat) v, known.locals[k]? = some v → v.MadeAt site →
        ∃ g, Frame.Arrives domain flow entry edge.handler g ∧ g.locals[k]? ≠ some v

section Handler

variable {m : MethodSig} {body : Body} {frames : Frame.Frames ConstantValue} {flow : Flow}
  {position : Nat} {known : Frame ConstantValue} {edge : HandlerEdge}

/-- A handler has a frame, and an array in one of its locals was there ahead of every instruction that
the handler covers. -/
theorem handler_frame (h : constantFrames m body = .ok frames) (hflow : Flow.ofBody body = .ok flow)
    (hknown : frames.getD position none = some known)
    (hreal : (flow.insnAt position).isReal = true) (hedge : edge ∈ flow.handlersAt position) :
    ∃ caught, frames.getD edge.handler none = some caught ∧
      ∀ (k : Nat) v site, caught.locals[k]? = some v → v.MadeAt site → known.locals[k]? = some v := by
  obtain ⟨flow', entry, hflow', _, hclosed⟩ := Frame.analyze_closed joinBounds h
  obtain rfl := Except.ok.inj (hflow.symm.trans hflow')
  obtain ⟨g, hg, caught, hcaught, hrel⟩ :=
    (hclosed.closedAt position known hknown).absorbed (.raise edge) ⟨hreal, hedge⟩
  obtain rfl := Except.ok.inj hg
  refine ⟨caught, hcaught, fun k v site hv hmade => ?_⟩
  rw [← Array.getElem?_toList] at hv
  obtain ⟨w, hw, hcovers⟩ := Frame.forall₂_getElem? hrel.locals hv
  rcases hcovers with rfl | ⟨width, rfl⟩
  · rwa [← Array.getElem?_toList]
  · exact hmade.elim

end Handler

/-- Arrays that a call may change are forgotten in its handlers exactly if, wherever a local holds one
ahead of the call, another value arrives at the handler. -/
theorem forgetsEscaped_iff {m : MethodSig} {body : Body} {frames : Frame.Frames ConstantValue}
    (h : constantFrames m body = .ok frames) :
    ForgetsEscaped body frames ↔ EscapedMeetsOther m body frames := by
  constructor
  · intro hforgets flow entry position site edge known hflow hentry hover hedge hknown k v hv hmade
    obtain ⟨_, _, _, _, _, hcode, _⟩ := id hover
    obtain ⟨caught, hcaught, _⟩ :=
      handler_frame h hflow hknown (isReal_of_opcode? hcode) hedge
    by_contra hall
    push Not at hall
    have hstale := (Frame.local_eq_iff h hflow hentry hmade.firm hcaught).mpr hall
    exact hforgets flow position site edge caught hflow hover hedge hcaught k v hstale hmade
  · intro hmeets flow position site edge caught hflow hover hedge hcaught k v hv hmade
    obtain ⟨known, _, _, _, hknown, hcode, _⟩ := id hover
    obtain ⟨flow', entry, hflow', hentry, _⟩ := Frame.analyze_closed joinBounds h
    obtain rfl := Except.ok.inj (hflow.symm.trans hflow')
    obtain ⟨caught', hcaught', hahead⟩ :=
      handler_frame h hflow hknown (isReal_of_opcode? hcode) hedge
    obtain rfl := Option.some.inj (hcaught.symm.trans hcaught')
    obtain ⟨g, harrives, hne⟩ := hmeets flow entry position site edge known hflow hentry hover hedge
      hknown k v (hahead k v site hv hmade) hmade
    exact hne ((Frame.local_eq_iff h hflow hentry hmade.firm hcaught).mp hv g harrives)

/-! ## A handler that trusts an array

The array stays in a local while a covered call is given it. -/

/-- A static method without parameters. -/
def trustingSig : MethodSig := ⟨"a/A", "m", "()V", 0x0008⟩

def trustingBody : Body where
  insns := InsnList.ofInsns #[
    .op 0x04, .type Opcode.anewarray 0 "java/lang/Class", .var Opcode.astore 0, .label,
    .var Opcode.aload 0, .invoke Opcode.invokestatic 0 ⟨"a/A", "f", "([Ljava/lang/Class;)V"⟩ false,
    .label, .op Opcode.returnVoid, .label, .op Opcode.pop, .op Opcode.returnVoid]
  regions := [⟨⟨3⟩, ⟨6⟩, ⟨8⟩, none⟩]
  locals := []
  maxStack := 1
  maxLocals := 1

/-- The call is at position 5, its handler at position 8. -/
def trustingFlow : Flow :=
  ⟨trustingBody.insns, trustingBody.insns.positions, [⟨3, 6, ⟨8, none⟩⟩]⟩

/-- The array that the local and the stack hold at the call. -/
def trustedArray : ConstantValue := .array (some ⟨1⟩) "java/lang/Class" 1 []

theorem trustingBody_flow : Flow.ofBody trustingBody = .ok trustingFlow := by
  have hcoverages : (trustingBody.regions.mapM (Flow.coverage trustingBody.insns.positions)).toOption =
      some [⟨3, 6, ⟨8, none⟩⟩] := by decide +kernel
  rw [Flow.ofBody, ok_of_toOption hcoverages]
  rfl

theorem trustingBody_not_forgetsEscaped :
    ∃ frames, constantFrames trustingSig trustingBody = .ok frames ∧
      ¬ ForgetsEscaped trustingBody frames := by
  have hframes : (constantFrames trustingSig trustingBody).toOption.map
      (fun frames => (frames.getD 5 none, frames.getD 8 none)) =
      some (some ⟨#[trustedArray], [trustedArray]⟩,
        some ⟨#[trustedArray], [.unknown .single]⟩) := by decide +kernel
  have hstep : (Frame.step domain (trustingFlow.idAt 5) (trustingFlow.insnAt 5) Opcode.invokestatic
      ⟨#[trustedArray], [trustedArray]⟩).toOption = some ([trustedArray], ⟨#[trustedArray], []⟩) := by
    decide +kernel
  cases hok : constantFrames trustingSig trustingBody with
  | error e => simp [hok, Except.toOption] at hframes
  | ok frames =>
    refine ⟨frames, rfl, fun hforgets => ?_⟩
    simp only [hok, Except.toOption, Option.map_some, Option.some.injEq, Prod.mk.injEq] at hframes
    obtain ⟨hcall, hcaught⟩ := hframes
    have hover : HandsOver trustingFlow frames 5 ⟨1⟩ :=
      ⟨_, Opcode.invokestatic, _, _, hcall, by decide +kernel, by decide, ok_of_toOption hstep, _,
        List.mem_cons_self, rfl⟩
    exact hforgets trustingFlow 5 ⟨1⟩ ⟨8, none⟩ _ trustingBody_flow hover (by decide +kernel) hcaught 0 _ rfl rfl

/-- Handlers may trust an array that a call was given. -/
theorem not_forall_forgetsEscaped :
    ¬ ∀ m body frames, constantFrames m body = .ok frames → ForgetsEscaped body frames := by
  intro hforgets
  obtain ⟨frames, hframes, hstale⟩ := trustingBody_not_forgetsEscaped
  exact hstale (hforgets trustingSig trustingBody frames hframes)

/-- Nothing but the array arrives at the handler. -/
theorem trustingBody_not_escapedMeetsOther :
    ∃ frames, constantFrames trustingSig trustingBody = .ok frames ∧
      ¬ EscapedMeetsOther trustingSig trustingBody frames := by
  obtain ⟨frames, hframes, hstale⟩ := trustingBody_not_forgetsEscaped
  exact ⟨frames, hframes, fun hmeets => hstale ((forgetsEscaped_iff hframes).mpr hmeets)⟩

end DirectCall
