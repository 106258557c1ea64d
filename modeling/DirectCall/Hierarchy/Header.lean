import DirectCall.ClassFile.Format

/-!
# Class headers

What the hierarchy keeps of a class: its name, its supertypes and its declared methods.
-/

namespace DirectCall

structure MethodHeader where
  name : String
  descriptor : String
  access : UInt16
  /-- Checked exceptions that the method declares. -/
  exceptions : List String
  deriving DecidableEq, Repr

structure ClassHeader where
  name : String
  superName : Option String
  interfaces : List String
  access : UInt16
  methods : List MethodHeader
  deriving DecidableEq, Repr

namespace MethodHeader

def isPublic (m : MethodHeader) : Bool := Access.isPublic m.access

def isStatic (m : MethodHeader) : Bool := Access.isStatic m.access

/-- The header of a method of a class file. -/
def ofMember (c : ClassFile) (className : String) (m : Member) : Except Fault MethodHeader := do
  let name ← c.memberName m
  let descriptor ← c.memberDescriptor m
  let exceptions ← during (.readingExceptions className) (c.exceptions m)
  return ⟨name, descriptor, m.access, exceptions⟩

end MethodHeader

namespace ClassHeader

def isPublic (c : ClassHeader) : Bool := Access.isPublic c.access

def isInterface (c : ClassHeader) : Bool := Access.isInterface c.access

/-- The superclass, which only classes have. -/
def superclass? (c : ClassHeader) : Option String :=
  if c.isInterface then none else c.superName

def ofClassFile (c : ClassFile) : Except Fault ClassHeader := do
  let name ← c.name
  let methods ← c.methods.mapM (MethodHeader.ofMember c name)
  let superName ← c.superName?
  let interfaces ← c.interfaceNames
  return ⟨name, superName, interfaces, c.access, methods⟩

end ClassHeader

end DirectCall
