import DirectCall.Descriptor.Method
import DirectCall.Opcode

/-!
# Instructions

An instruction carries its operands resolved: constants and members instead of pool indices, nodes
instead of offsets. Labels and line markers are instructions too, without an opcode. The pool index
of an instruction read from a class file is kept; index `0` marks one made afresh.
-/

namespace DirectCall

/-- Identity of a node in an instruction list. -/
structure NodeId where
  index : Nat
  deriving DecidableEq, Repr, Hashable, Inhabited

namespace NodeId

/-- A target that leads to no node. -/
def dangling : NodeId := ⟨4294967295⟩

end NodeId

/-- A constant that an instruction loads. Floating point numbers are kept as bit patterns. -/
inductive Constant where
  | int (value : Int32)
  | float (bits : UInt32)
  | long (value : Int64)
  | double (bits : UInt64)
  | string (text : String)
  | classRef (name : String)
  | methodType (descriptor : String)
  | methodHandle
  /-- Computed on first use, of the type that the field descriptor spells. -/
  | dynamic (descriptor : String)
  deriving DecidableEq, Repr

namespace Constant

def isWide : Constant → Bool
  | long _ => true
  | double _ => true
  | _ => false

/-- Type of the loaded value. -/
def descriptor : Constant → String
  | int _ => "I"
  | float _ => "F"
  | long _ => "J"
  | double _ => "D"
  | string _ => "Ljava/lang/String;"
  | classRef _ => "Ljava/lang/Class;"
  | methodType _ => "Ljava/lang/invoke/MethodType;"
  | methodHandle => "Ljava/lang/invoke/MethodHandle;"
  | dynamic d => d

end Constant

/-- A field or method, by owner, name and descriptor. -/
structure MemberRef where
  owner : String
  name : String
  descriptor : String
  deriving DecidableEq, Repr

namespace MemberRef

def isNamed (m : MemberRef) (owner name : String) : Bool := m.owner == owner && m.name == name

end MemberRef

inductive Insn where
  | label
  | line (number : UInt16)
  /-- An instruction without operands. -/
  | op (opcode : UInt8)
  /-- `bipush` or `sipush`. -/
  | push (opcode : UInt8) (value : Int32)
  | newArray (code : UInt8)
  /-- Access to a local variable, with the variable as operand. -/
  | var (opcode : UInt8) (var : UInt16)
  | iinc (var : UInt16) (delta : Int16)
  | ldc (index : UInt16) (constant : Constant)
  | field (opcode : UInt8) (index : UInt16) (member : MemberRef)
  | invoke (opcode : UInt8) (index : UInt16) (member : MemberRef) (interface : Bool)
  | invokeDynamic (index : UInt16) (name descriptor : String)
  /-- `new`, `anewarray`, `checkcast` or `instanceof`. -/
  | type (opcode : UInt8) (index : UInt16) (className : String)
  | multiNewArray (index : UInt16) (descriptor : String) (dims : UInt8)
  /-- A jump in its short form, whatever width it will take. -/
  | jump (opcode : UInt8) (target : NodeId)
  | tableSwitch (low : Int32) (default : NodeId) (targets : List NodeId)
  | lookupSwitch (default : NodeId) (keys : List Int32) (targets : List NodeId)
  deriving DecidableEq, Repr, Inhabited

namespace Insn

/-- Opcode of a real instruction. -/
def opcode? : Insn → Option UInt8
  | label => none
  | line _ => none
  | op code => some code
  | push code _ => some code
  | newArray _ => some Opcode.newarray
  | var code _ => some code
  | iinc _ _ => some Opcode.iinc
  | ldc _ constant => some (if constant.isWide then Opcode.ldc2W else Opcode.ldc)
  | field code _ _ => some code
  | invoke code _ _ _ => some code
  | invokeDynamic _ _ _ => some Opcode.invokedynamic
  | type code _ _ => some code
  | multiNewArray _ _ _ => some Opcode.multianewarray
  | jump code _ => some code
  | tableSwitch _ _ _ => some Opcode.tableswitch
  | lookupSwitch _ _ _ => some Opcode.lookupswitch

/-- Neither a label nor a line marker. -/
def isReal : Insn → Bool
  | label => false
  | line _ => false
  | _ => true

/-- Nodes that the instruction may transfer control to; the default of a switch comes first. -/
def targets : Insn → List NodeId
  | jump _ target => [target]
  | tableSwitch _ default targets => default :: targets
  | lookupSwitch default _ targets => default :: targets
  | _ => []

/-- Control never passes on to the next instruction. -/
def endsFlow : Insn → Bool
  | jump code _ => code == Opcode.goto
  | tableSwitch _ _ _ => true
  | lookupSwitch _ _ _ => true
  | op code => Opcode.between Opcode.ireturn Opcode.returnVoid code || code == Opcode.athrow
  | var code _ => code == Opcode.ret
  | _ => false

/-- The method that a call names. -/
def invoked? : Insn → Option MemberRef
  | invoke _ _ member _ => some member
  | _ => none

/-- A fresh call. -/
def call (opcode : UInt8) (member : MemberRef) (interface : Bool) : Insn :=
  invoke opcode 0 member interface

/-- A fresh instruction that names a class. -/
def ofClass (opcode : UInt8) (className : String) : Insn :=
  type opcode 0 className

/-- A fresh load of a constant. -/
def load (constant : Constant) : Insn :=
  ldc 0 constant

/-- The shortest instruction that pushes `value`. -/
def pushInt (value : Int32) : Insn :=
  if -1 ≤ value ∧ value ≤ 5 then op (Opcode.iconst0.toNat + value.toInt).toNat.toUInt8
  else if -128 ≤ value ∧ value ≤ 127 then push Opcode.bipush value
  else if -32768 ≤ value ∧ value ≤ 32767 then push Opcode.sipush value
  else load (.int value)

end Insn

end DirectCall
