import DirectCall.Frame.Solve
import DirectCall.Hierarchy
import DirectCall.Insn.Result

/-!
# Verification types

The domain in which class files are verified: the type of every slot. References meet in the nearest
common superclass; an object is of no class yet until its constructor has run.
-/

namespace DirectCall

inductive VerificationType where
  /-- Nothing that could be used. -/
  | top
  | int
  | float
  | long
  | double
  | null
  /-- The receiver of a constructor before another constructor has run on it. -/
  | uninitThis
  /-- An object of the class, made at `site`, before its constructor has run. -/
  | uninit (site : NodeId) (className : String)
  /-- A class name or the descriptor of an array type. -/
  | object (className : String)
  deriving DecidableEq, Repr

namespace VerificationType

def size : VerificationType → Nat
  | long => 2
  | double => 2
  | _ => 1

def ofDescriptor (d : String) : VerificationType :=
  match d.toList with
  | 'Z' :: _ => int
  | 'B' :: _ => int
  | 'C' :: _ => int
  | 'S' :: _ => int
  | 'I' :: _ => int
  | 'F' :: _ => float
  | 'J' :: _ => long
  | 'D' :: _ => double
  | '[' :: _ => object d
  | 'L' :: _ => object ((Descriptor.className? d).getD objectClass)
  | _ => top

/-- The type that an instruction pushes. -/
def ofResult (insn : Insn) : VerificationType :=
  match insn.result? with
  | some d => ofDescriptor d
  | none => top

/-- The common supertype of two names of fewer than `depth` dimensions. -/
def joinNames (h : Hierarchy) : Nat → String → String → String
  | 0, _, _ => objectClass
  | depth + 1, a, b =>
    match Hierarchy.component? a, Hierarchy.component? b with
    | some a, some b =>
      match Descriptor.className? a, Descriptor.className? b with
      | some a, some b => "[" ++ Descriptor.ofClassName (joinNames h depth a b)
      | _, _ => objectClass
    | none, none => h.commonSuperclass a b
    | _, _ => objectClass

def join (h : Hierarchy) (x y : VerificationType) : VerificationType :=
  if x = y then x
  else
    match x, y with
    | null, object _ => y
    | object _, null => x
    | object a, object b => object (joinNames h (a.length + 1) a b)
    | _, _ => top

def produce (id : NodeId) (insn : Insn) : VerificationType :=
  match insn with
  | .op code => if code = Opcode.aconstNull then null else ofResult insn
  | .type code _ className => if code = Opcode.newObject then uninit id className else ofResult insn
  | insn => ofResult insn

def unary (insn : Insn) (operand : VerificationType) : VerificationType :=
  match insn with
  | .iinc _ _ => operand
  | insn => ofResult insn

/-- The element type of an array of references. -/
def element : VerificationType → VerificationType
  | object array =>
    match Hierarchy.component? array with
    | some d => ofDescriptor d
    | none => object objectClass
  | _ => null

def binary (insn : Insn) (first : VerificationType) : VerificationType :=
  if insn.opcode? = some Opcode.aaload then element first else ofResult insn

/-- A constructor makes every copy of its receiver an object of its class. -/
def refine (owner : String) (insn : Insn) (operands : List VerificationType) :
    List (VerificationType × VerificationType) :=
  match insn with
  | .invoke code _ member _ =>
    if code = Opcode.invokespecial ∧ member.name = "<init>" then
      match operands with
      | uninit site className :: _ => [(uninit site className, object className)]
      | uninitThis :: _ => [(uninitThis, object owner)]
      | _ => []
    else []
  | _ => []

/-- A constructor gets its receiver without a class, except that of the root class. -/
def receiver (m : MethodSig) : VerificationType :=
  if m.name = "<init>" ∧ m.owner ≠ objectClass then uninitThis else object m.owner

/-- The domain of verification types for a method. -/
def domain (h : Hierarchy) (m : MethodSig) : Domain VerificationType where
  size := size
  ofDescriptor d := (d.map ofDescriptor).getD top
  receiver := receiver
  exception catchType := object (catchType.getD "java/lang/Throwable")
  produce := produce
  copy _ _ v := v
  unary _ insn v := unary insn v
  binary _ insn a _ := binary insn a
  nary _ insn _ := ofResult insn
  join := join h
  refine _ insn operands := refine m.owner insn operands
  height brackets := 2 * brackets + h.size + 3

end VerificationType

end DirectCall
