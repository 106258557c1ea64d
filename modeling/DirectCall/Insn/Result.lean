import DirectCall.Insn

/-!
# Types of results

`Insn.result?` gives the field descriptor of the one value that an instruction pushes; it is what a
domain that knows nothing better of the value falls back on.
-/

namespace DirectCall

namespace Opcode

/-- Letter at `index`, counted around. -/
def cyclic (letters : List String) (index : Nat) : Option String :=
  letters[index % letters.length]?

/-- Result type of an instruction without operands. -/
def result? (code : UInt8) : Option String :=
  if code = aconstNull ∨ code = aaload then some "Ljava/lang/Object;"
  else if between iconstM1 iconst5 code then some "I"
  else if code = lconst0 ∨ code = lconst1 then some "J"
  else if between fconst0 fconst2 code then some "F"
  else if code = dconst0 ∨ code = dconst1 then some "D"
  else if code = laload then some "J"
  else if code = faload then some "F"
  else if code = daload then some "D"
  else if between iaload saload code then some "I"
  else if between iadd dneg code then cyclic ["I", "J", "F", "D"] (code - iadd).toNat
  else if between ishl lxor code then cyclic ["I", "J"] (code - ishl).toNat
  else if code = i2l ∨ code = f2l ∨ code = d2l then some "J"
  else if code = i2f ∨ code = l2f ∨ code = d2f then some "F"
  else if code = i2d ∨ code = l2d ∨ code = f2d then some "D"
  else if between i2l i2s code then some "I"
  else if between lcmp dcmpg code then some "I"
  else if code = arraylength then some "I"
  else none

end Opcode

namespace Insn

/-- Field descriptor of the pushed value; `none` if nothing is pushed or the type is open. -/
def result? : Insn → Option String
  | op code => Opcode.result? code
  | push _ _ => some "I"
  | newArray code => (Descriptor.ofArrayCode? code).map ("[" ++ ·)
  | ldc _ constant => some constant.descriptor
  | field code _ member =>
    if code = Opcode.getstatic ∨ code = Opcode.getfield then some member.descriptor else none
  | invoke _ _ member _ => MethodDescriptor.resultOf? member.descriptor
  | invokeDynamic _ _ descriptor => MethodDescriptor.resultOf? descriptor
  | type code _ className =>
    if code = Opcode.newObject ∨ code = Opcode.checkcast then some (Descriptor.ofClassName className)
    else if code = Opcode.anewarray then some ("[" ++ Descriptor.ofClassName className)
    else if code = Opcode.instanceOf then some "I"
    else none
  | multiNewArray _ descriptor _ => some descriptor
  | _ => none

end Insn

end DirectCall
