import DirectCall.Frame
import DirectCall.Frame.Shuffle

/-!
# Executing one instruction

`Frame.execute` carries out the effect of an instruction on a frame of any domain.
-/

namespace DirectCall.Frame

variable {V : Type}

/-- The local variable that a load or store names. -/
def localOperand : Insn → Except Fault Nat
  | .var _ var => .ok var.toNat
  | insn => .error (.notLocalAccess insn)

/-- Number of operands of a call, and whether it pushes a result. -/
def callShape (insn : Insn) : Except Fault (Nat × Bool) :=
  match insn with
  | .invoke code _ member _ => shape member.descriptor (if code = Opcode.invokestatic then 0 else 1)
  | .invokeDynamic _ _ descriptor => shape descriptor 0
  | insn => .error (.malformedInvoke insn)
where
  shape (descriptor : String) (receiver : Nat) : Except Fault (Nat × Bool) :=
    match MethodDescriptor.parse descriptor with
    | .error cause => .error (.descriptor descriptor cause)
    | .ok parsed => .ok (parsed.params.length + receiver, parsed.ret != "V")

/-- Pushes a result if there is one. -/
def pushIf (f : Frame V) (pushes : Bool) (v : V) : Frame V := if pushes then f.push v else f

/-- Operands that an instruction consumed, and the frame after it. -/
abbrev Step (V : Type) := List V × Frame V

/-- Pops two operands and computes a result from them. -/
def stepBinary (d : Domain V) (id : NodeId) (insn : Insn) (pushes : Bool) (f : Frame V) :
    Except Fault (Step V) := do
  match ← f.pop 2 with
  | ([a, b], f) => return ([a, b], f.pushIf pushes (d.binary id insn a b))
  | _ => throw .stackUnderflow

def stepUnary (d : Domain V) (id : NodeId) (insn : Insn) (pushes : Bool) (f : Frame V) :
    Except Fault (Step V) := do
  match ← f.pop 1 with
  | ([a], f) => return ([a], f.pushIf pushes (d.unary id insn a))
  | _ => throw .stackUnderflow

/-- Pops `count` operands and computes a result from all of them. -/
def stepNary (d : Domain V) (id : NodeId) (insn : Insn) (count : Nat) (pushes : Bool) (f : Frame V) :
    Except Fault (Step V) := do
  let (operands, f) ← f.pop count
  return (operands, f.pushIf pushes (d.nary id insn operands))

def stepStore (d : Domain V) (id : NodeId) (insn : Insn) (f : Frame V) : Except Fault (Step V) := do
  let var ← localOperand insn
  match ← f.pop 1 with
  | ([a], f) => return ([a], ← f.setLocal d var (d.copy id insn a))
  | _ => throw .stackUnderflow

/-- Pops one wide value or two others. -/
def stepPop2 (d : Domain V) (f : Frame V) : Except Fault (Step V) :=
  match f.stack with
  | [] => .error .stackUnderflow
  | a :: s =>
    if d.size a = 1 then
      match s with
      | b :: s => .ok ([b, a], { f with stack := s })
      | [] => .error .stackUnderflow
    else .ok ([a], { f with stack := s })

def stepShuffle (d : Domain V) (id : NodeId) (insn : Insn) (kind : Shuffle) (f : Frame V) :
    Except Fault (Step V) :=
  match kind.run d.size (d.copy id insn) f.stack with
  | some (_, stack) => .ok ([], { f with stack := stack })
  | none => .error .stackUnderflow

def stepIncrement (d : Domain V) (id : NodeId) (insn : Insn) (f : Frame V) :
    Except Fault (Step V) := do
  match insn with
  | .iinc var _ => return ([], ← f.setLocal d var.toNat (d.unary id insn (← f.getLocal var.toNat)))
  | insn => throw (.malformedIinc insn)

/-- The effect of an opcode, but for the refinements of the domain. -/
def step (d : Domain V) (id : NodeId) (insn : Insn) (code : UInt8) (f : Frame V) :
    Except Fault (Step V) :=
  match Opcode.effect code with
  | .nothing => .ok ([], f)
  | .produce => .ok ([], f.push (d.produce id insn))
  | .load => do
    let var ← localOperand insn
    return ([], f.push (d.copy id insn (← f.getLocal var)))
  | .store => stepStore d id insn f
  | .storeElement => f.pop 3
  | .pop => f.pop 1
  | .pop2 => stepPop2 d f
  | .shuffle kind => stepShuffle d id insn kind f
  | .binary pushes => stepBinary d id insn pushes f
  | .unary pushes => stepUnary d id insn pushes f
  | .increment => stepIncrement d id insn f
  | .call => do
    let (count, pushes) ← callShape insn
    stepNary d id insn count pushes f
  | .newMultiArray =>
    match insn with
    | .multiNewArray _ _ dims => stepNary d id insn dims.toNat true f
    | insn => .error (.malformedMultiNewArray insn)
  | .subroutine => .error .subroutine
  | .unsupported => .error (.unsupportedOpcode code)

/-- The frame after an instruction. Labels and line markers change nothing. -/
def execute [DecidableEq V] (d : Domain V) (id : NodeId) (insn : Insn) (f : Frame V) :
    Except Fault (Frame V) :=
  match insn.opcode? with
  | none => .ok f
  | some code => do
    let (consumed, f) ← step d id insn code f
    return f.replaceAll (d.refine id insn consumed)

end DirectCall.Frame
