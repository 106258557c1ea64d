import DirectCall.ConstantValue
import DirectCall.Frame.Solve
import DirectCall.Insn.Reflection
import DirectCall.Insn.Result

/-!
# Constant propagation

The domain of constant values. Array literals are followed through their stores; an array that is
handed to a call, a field or another array may change afterwards and is forgotten everywhere.
-/

namespace DirectCall

namespace ConstantValue

/-- The class object of a primitive type, read from its wrapper class. -/
def ofStaticField (member : MemberRef) : Option ConstantValue :=
  if member.name = "TYPE" ∧ member.descriptor = "Ljava/lang/Class;"
      ∧ (Primitive.ofWrapper? member.owner).isSome then
    some (.primitiveClass member.owner)
  else none

def produce (_ : NodeId) (insn : Insn) : ConstantValue :=
  match insn with
  | .op code =>
    if Opcode.between Opcode.iconstM1 Opcode.iconst5 code then
      .int (Int32.ofInt (code.toNat - Opcode.iconst0.toNat))
    else ofDescriptor insn.result?
  | .push _ value => .int value
  | .ldc _ (.int value) => .int value
  | .ldc _ (.string text) => .string text
  | .ldc _ (.classRef name) => .classRef name
  | .field code _ member =>
    match ofStaticField member with
    | some value => if code = Opcode.getstatic then value else ofDescriptor insn.result?
    | none => ofDescriptor insn.result?
  | insn => ofDescriptor insn.result?

/-- A new array of constant length is a literal; a cast keeps what is known. -/
def unary (id : NodeId) (insn : Insn) (operand : ConstantValue) : ConstantValue :=
  match insn with
  | .type code _ className =>
    if code = Opcode.anewarray then
      match operand with
      | .int length => if 0 ≤ length then freshArray id className length else ofDescriptor insn.result?
      | _ => ofDescriptor insn.result?
    else if code = Opcode.checkcast && operand.isConstant then operand
    else ofDescriptor insn.result?
  | insn => ofDescriptor insn.result?

/-- The look-up that a call makes with these operands. -/
def lookup? (id : NodeId) (insn : Insn) (operands : List ConstantValue) : Option ConstantValue :=
  match insn.isMethodLookup, insn.invoked?, operands with
  | true, some member, [.classRef className, .string methodName, types] => do
    let params ← (← types.elements?).mapM describedType?
    return .method ⟨id, className, methodName, params, member.name == Insn.getDeclaredMethod⟩
  | _, _, _ => none

def nary (id : NodeId) (insn : Insn) (operands : List ConstantValue) : ConstantValue :=
  (lookup? id insn operands).getD (ofDescriptor insn.result?)

/-- Forgets an array that others may change from now on. Arrays without slots cannot change. -/
def escape (value : ConstantValue) : List (ConstantValue × ConstantValue) :=
  match value with
  | .array (some _) _ _ _ => [(value, .unknown .single)]
  | _ => []

/-- The array after a store to an index that may not be known. -/
def stored (target index value : ConstantValue) : ConstantValue :=
  match index with
  | .int index => target.withSlot index value
  | _ => .unknown .single

/-- What the arrays become that an instruction consumed. -/
def refine (_ : NodeId) (insn : Insn) (operands : List ConstantValue) :
    List (ConstantValue × ConstantValue) :=
  match insn.opcode? with
  | none => []
  | some code =>
    if code = Opcode.aastore then
      match operands with
      | [target, index, value] =>
        let update :=
          match target with
          | .array .. =>
            let updated := stored target index value
            if updated = target then [] else [(target, updated)]
          | _ => []
        value.escape ++ update
      | _ => []
    else if Opcode.between Opcode.invokevirtual Opcode.invokedynamic code || code == Opcode.putfield
        || code == Opcode.putstatic then
      operands.flatMap escape
    else []

/-- The domain of constant values. -/
def domain : Domain ConstantValue where
  size := size
  ofDescriptor d := if d.isSome then ofDescriptor d else .unset
  receiver m := ofDescriptor (some (Descriptor.ofClassName m.owner))
  exception _ := .unknown .single
  produce := produce
  copy _ _ value := value
  unary := unary
  binary _ insn _ _ := ofDescriptor insn.result?
  nary := nary
  join := join
  refine := refine
  height _ := 2

end ConstantValue

/-- Constants at each position of a body. -/
def constantFrames (m : MethodSig) (body : Body) : Except Fault (Frame.Frames ConstantValue) :=
  Frame.analyze ConstantValue.domain m body

end DirectCall
