import DirectCall.Insn

/-!
# Effects of opcodes

How an instruction uses the operand stack and the local variables, read off its opcode alone.
-/

namespace DirectCall

/-- Rearrangements of the top of the stack. -/
inductive Shuffle where
  | dup
  | dupX1
  | dupX2
  | dup2
  | dup2X1
  | dup2X2
  | swap
  deriving DecidableEq, Repr

inductive Effect where
  | nothing
  /-- Pushes a value made without operands. -/
  | produce
  | load
  | store
  /-- Stores into an array: three operands. -/
  | storeElement
  | pop
  /-- Pops two slots. -/
  | pop2
  | shuffle (kind : Shuffle)
  /-- Two operands, and a result if it pushes one. -/
  | binary (pushes : Bool)
  | unary (pushes : Bool)
  /-- Changes a local in place. -/
  | increment
  | call
  | newMultiArray
  | subroutine
  | unsupported
  deriving DecidableEq, Repr

namespace Opcode

def shuffle? (code : UInt8) : Option Shuffle :=
  if code = dup then some .dup
  else if code = dupX1 then some .dupX1
  else if code = dupX2 then some .dupX2
  else if code = dup2 then some .dup2
  else if code = dup2X1 then some .dup2X1
  else if code = dup2X2 then some .dup2X2
  else if code = swap then some .swap
  else none

/-- Opcodes of results from two operands. -/
def isBinary (code : UInt8) : Bool :=
  between iaload saload code || between iadd drem code || between ishl lxor code
    || between lcmp dcmpg code

/-- Opcodes of results from one operand. -/
def isUnary (code : UInt8) : Bool :=
  between ineg dneg code || between i2l i2s code || code == getfield || code == newarray
    || code == anewarray || code == arraylength || code == checkcast || code == instanceOf

/-- Opcodes that use one operand up. -/
def isConsumer (code : UInt8) : Bool :=
  between ifeq ifle code || code == ifnull || code == ifnonnull || code == tableswitch
    || code == lookupswitch || between ireturn areturn code || code == putstatic || code == athrow
    || code == monitorenter || code == monitorexit

def effect (code : UInt8) : Effect :=
  if code = nop ∨ code = goto ∨ code = returnVoid then .nothing
  else if between aconstNull ldc2W code || code == getstatic || code == newObject then .produce
  else if between iload aload code then .load
  else if between istore astore code then .store
  else if between iastore sastore code then .storeElement
  else if code = Opcode.pop then .pop
  else if code = Opcode.pop2 then .pop2
  else if isBinary code then .binary true
  else if between ifIcmpeq ifAcmpne code || code == putfield then .binary false
  else if isUnary code then .unary true
  else if isConsumer code then .unary false
  else if code = iinc then .increment
  else if between invokevirtual invokedynamic code then .call
  else if code = multianewarray then .newMultiArray
  else if code = jsr ∨ code = ret then .subroutine
  else
    match shuffle? code with
    | some kind => .shuffle kind
    | none => .unsupported

end Opcode

end DirectCall
