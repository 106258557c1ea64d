/-!
# Opcodes

The instruction numbers that the library tells apart. Families of opcodes are ranges between two of
these.
-/

namespace DirectCall.Opcode

def nop : UInt8 := 0x00
def aconstNull : UInt8 := 0x01
def iconstM1 : UInt8 := 0x02
def iconst0 : UInt8 := 0x03
def iconst5 : UInt8 := 0x08
def lconst0 : UInt8 := 0x09
def lconst1 : UInt8 := 0x0a
def fconst0 : UInt8 := 0x0b
def fconst2 : UInt8 := 0x0d
def dconst0 : UInt8 := 0x0e
def dconst1 : UInt8 := 0x0f
def bipush : UInt8 := 0x10
def sipush : UInt8 := 0x11
def ldc : UInt8 := 0x12
def ldcW : UInt8 := 0x13
def ldc2W : UInt8 := 0x14
def iload : UInt8 := 0x15
def lload : UInt8 := 0x16
def dload : UInt8 := 0x18
def aload : UInt8 := 0x19
def iload0 : UInt8 := 0x1a
def aload3 : UInt8 := 0x2d
def iaload : UInt8 := 0x2e
def laload : UInt8 := 0x2f
def faload : UInt8 := 0x30
def daload : UInt8 := 0x31
def aaload : UInt8 := 0x32
def baload : UInt8 := 0x33
def caload : UInt8 := 0x34
def saload : UInt8 := 0x35
def istore : UInt8 := 0x36
def lstore : UInt8 := 0x37
def fstore : UInt8 := 0x38
def dstore : UInt8 := 0x39
def astore : UInt8 := 0x3a
def istore0 : UInt8 := 0x3b
def astore3 : UInt8 := 0x4e
def iastore : UInt8 := 0x4f
def aastore : UInt8 := 0x53
def sastore : UInt8 := 0x56
def pop : UInt8 := 0x57
def pop2 : UInt8 := 0x58
def dup : UInt8 := 0x59
def dupX1 : UInt8 := 0x5a
def dupX2 : UInt8 := 0x5b
def dup2 : UInt8 := 0x5c
def dup2X1 : UInt8 := 0x5d
def dup2X2 : UInt8 := 0x5e
def swap : UInt8 := 0x5f
def iadd : UInt8 := 0x60
def drem : UInt8 := 0x73
def ineg : UInt8 := 0x74
def dneg : UInt8 := 0x77
def ishl : UInt8 := 0x78
def lxor : UInt8 := 0x83
def iinc : UInt8 := 0x84
def i2l : UInt8 := 0x85
def i2f : UInt8 := 0x86
def i2d : UInt8 := 0x87
def l2i : UInt8 := 0x88
def l2f : UInt8 := 0x89
def l2d : UInt8 := 0x8a
def f2i : UInt8 := 0x8b
def f2l : UInt8 := 0x8c
def f2d : UInt8 := 0x8d
def d2i : UInt8 := 0x8e
def d2l : UInt8 := 0x8f
def d2f : UInt8 := 0x90
def i2b : UInt8 := 0x91
def i2c : UInt8 := 0x92
def i2s : UInt8 := 0x93
def lcmp : UInt8 := 0x94
def dcmpg : UInt8 := 0x98
def ifeq : UInt8 := 0x99
def ifle : UInt8 := 0x9e
def ifIcmpeq : UInt8 := 0x9f
def ifIcmplt : UInt8 := 0xa1
def ifAcmpeq : UInt8 := 0xa5
def ifAcmpne : UInt8 := 0xa6
def goto : UInt8 := 0xa7
def jsr : UInt8 := 0xa8
def ret : UInt8 := 0xa9
def tableswitch : UInt8 := 0xaa
def lookupswitch : UInt8 := 0xab
def ireturn : UInt8 := 0xac
def areturn : UInt8 := 0xb0
def returnVoid : UInt8 := 0xb1
def getstatic : UInt8 := 0xb2
def putstatic : UInt8 := 0xb3
def getfield : UInt8 := 0xb4
def putfield : UInt8 := 0xb5
def invokevirtual : UInt8 := 0xb6
def invokespecial : UInt8 := 0xb7
def invokestatic : UInt8 := 0xb8
def invokeinterface : UInt8 := 0xb9
def invokedynamic : UInt8 := 0xba
def newObject : UInt8 := 0xbb
def newarray : UInt8 := 0xbc
def anewarray : UInt8 := 0xbd
def arraylength : UInt8 := 0xbe
def athrow : UInt8 := 0xbf
def checkcast : UInt8 := 0xc0
def instanceOf : UInt8 := 0xc1
def monitorenter : UInt8 := 0xc2
def monitorexit : UInt8 := 0xc3
def wide : UInt8 := 0xc4
def multianewarray : UInt8 := 0xc5
def ifnull : UInt8 := 0xc6
def ifnonnull : UInt8 := 0xc7
def gotoW : UInt8 := 0xc8
def jsrW : UInt8 := 0xc9

/-- `op` lies between `first` and `last`. -/
def between (first last op : UInt8) : Bool := first ≤ op && op ≤ last

end DirectCall.Opcode

namespace DirectCall.Code

/-- Filler between the opcode of a switch at `offset` and its operands, which start at a multiple of
four. -/
def padding (offset : Nat) : Nat := 3 - offset % 4

end DirectCall.Code
