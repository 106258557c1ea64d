import DirectCall.Insn
import DirectCall.Decimal.Text
import DirectCall.Text.Shown

/-!
# Instructions inside messages
-/

namespace DirectCall

open Text.Shown (tuple record list)
open Text.Quoted (quote)

def Constant.text : Constant → String
  | int value => tuple "Int" [toString value.toInt]
  | float bits => tuple "Float" [Decimal.Format.single.text bits.toNat]
  | long value => tuple "Long" [toString value.toInt]
  | double bits => tuple "Double" [Decimal.Format.double.text bits.toNat]
  | string text => tuple "Str" [quote text]
  | classRef name => tuple "Class" [quote name]
  | methodType descriptor => tuple "MethodType" [quote descriptor]
  | methodHandle => "MethodHandle"
  | dynamic descriptor => tuple "Dynamic" [quote descriptor]

def NodeId.text (id : NodeId) : String := tuple "InsnId" [toString id.index]

def MemberRef.text (m : MemberRef) : String :=
  record "MemberRef"
    [("owner", quote m.owner), ("name", quote m.name), ("descriptor", quote m.descriptor)]

namespace Insn

def number (n : Nat) : String := toString n

def text : Insn → String
  | label => "Label"
  | line n => tuple "Line" [number n.toNat]
  | op code => tuple "Op" [number code.toNat]
  | push code value =>
    record "Push" [("opcode", number code.toNat), ("value", toString value.toInt)]
  | newArray code => record "NewArray" [("atype", number code.toNat)]
  | var code v => record "Var" [("opcode", number code.toNat), ("var", number v.toNat)]
  | iinc v delta => record "Iinc" [("var", number v.toNat), ("delta", toString delta.toInt)]
  | ldc index constant =>
    record "Ldc" [("index", number index.toNat), ("constant", constant.text)]
  | field code index member =>
    record "Field"
      [("opcode", number code.toNat), ("index", number index.toNat), ("member", member.text)]
  | invoke code index member interface =>
    record "Invoke"
      [("opcode", number code.toNat), ("index", number index.toNat), ("member", member.text),
        ("interface", toString interface)]
  | invokeDynamic index name descriptor =>
    record "InvokeDynamic"
      [("index", number index.toNat), ("name", quote name), ("descriptor", quote descriptor)]
  | type code index className =>
    record "Type"
      [("opcode", number code.toNat), ("index", number index.toNat), ("class", quote className)]
  | multiNewArray index descriptor dims =>
    record "MultiNewArray"
      [("index", number index.toNat), ("descriptor", quote descriptor), ("dims", number dims.toNat)]
  | jump code target => record "Jump" [("opcode", number code.toNat), ("target", target.text)]
  | tableSwitch low default targets =>
    record "TableSwitch"
      [("low", toString low.toInt), ("default", default.text),
        ("targets", list (targets.map (·.text)))]
  | lookupSwitch default keys targets =>
    record "LookupSwitch"
      [("default", default.text), ("keys", list (keys.map fun key => toString key.toInt)),
        ("targets", list (targets.map (·.text)))]

end Insn

end DirectCall
