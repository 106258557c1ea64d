import DirectCall.Insn

/-!
# Calls into the reflection interface

The calls that the library looks for: looking a method up, invoking it, and looking a class up by
name.
-/

namespace DirectCall.Insn

/-- Descriptor of `getMethod` and `getDeclaredMethod`. -/
def lookupDescriptor : String :=
  "(Ljava/lang/String;[Ljava/lang/Class;)Ljava/lang/reflect/Method;"

def getMethod : String := "getMethod"

def getDeclaredMethod : String := "getDeclaredMethod"

/-- A call of `getMethod` or `getDeclaredMethod` on a class. -/
def isMethodLookup : Insn → Bool
  | invoke code _ member _ =>
    code == Opcode.invokevirtual && member.owner == "java/lang/Class"
      && (member.name == getMethod || member.name == getDeclaredMethod)
      && member.descriptor == lookupDescriptor
  | _ => false

/-- A call of `invoke` on a method object. -/
def isReflectiveInvoke : Insn → Bool
  | invoke code _ member _ =>
    code == Opcode.invokevirtual && member.owner == "java/lang/reflect/Method"
      && member.name == "invoke"
      && member.descriptor == "(Ljava/lang/Object;[Ljava/lang/Object;)Ljava/lang/Object;"
  | _ => false

/-- A call of the static `forName` that takes the name only. -/
def isForName : Insn → Bool
  | invoke code _ member _ =>
    code == Opcode.invokestatic && member.isNamed "java/lang/Class" "forName"
      && member.descriptor == "(Ljava/lang/String;)Ljava/lang/Class;"
  | _ => false

end DirectCall.Insn
