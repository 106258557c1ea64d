import DirectCall.InsnList

/-!
# Method bodies

A body is an instruction list with its exception regions and local variable entries, all of which
point at nodes. `MethodSig` is what an analysis has to know of the method.
-/

namespace DirectCall

namespace Access

def isPublic (access : UInt16) : Bool := access &&& 0x0001 != 0
def isPrivate (access : UInt16) : Bool := access &&& 0x0002 != 0
def isStatic (access : UInt16) : Bool := access &&& 0x0008 != 0
def isInterface (access : UInt16) : Bool := access &&& 0x0200 != 0
def isModule (access : UInt16) : Bool := access &&& 0x8000 != 0

end Access

/-- The instructions from `start` up to `stop` are covered by the handler. -/
structure Region where
  start : NodeId
  stop : NodeId
  handler : NodeId
  /-- The class caught; `none` catches all. -/
  catchType : Option String
  deriving DecidableEq, Repr

/-- A range of instructions in which a local variable has a name and a type. -/
structure LocalEntry where
  start : NodeId
  stop : NodeId
  nameIndex : UInt16
  descriptorIndex : UInt16
  index : UInt16
  /-- The entry gives a generic type. -/
  isTypeEntry : Bool
  deriving DecidableEq, Repr

structure Body where
  insns : InsnList
  regions : List Region
  locals : List LocalEntry
  maxStack : UInt16
  maxLocals : UInt16
  deriving Inhabited

/-- Identity of a method. -/
structure MethodSig where
  owner : String
  name : String
  descriptor : String
  access : UInt16
  deriving DecidableEq, Repr

namespace MethodSig

def isStatic (m : MethodSig) : Bool := Access.isStatic m.access

end MethodSig

end DirectCall
