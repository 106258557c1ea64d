import DirectCall.Body
import DirectCall.ConstantPool

/-!
# Class files

A class file as a value. Attributes keep their bytes; only what a pass has to know is looked up, by
name, through the constant pool.
-/

namespace DirectCall

structure Attribute where
  nameIndex : UInt16
  info : List UInt8
  deriving DecidableEq, Repr

/-- A field or a method. -/
structure Member where
  access : UInt16
  nameIndex : UInt16
  descriptorIndex : UInt16
  attributes : List Attribute
  deriving DecidableEq, Repr

/-- An entry of an exception table, over offsets; catch type `0` catches all. -/
structure HandlerRange where
  start : UInt16
  stop : UInt16
  handler : UInt16
  catchType : UInt16
  deriving DecidableEq, Repr

structure CodeAttribute where
  maxStack : UInt16
  maxLocals : UInt16
  code : List UInt8
  handlers : List HandlerRange
  attributes : List Attribute
  deriving DecidableEq, Repr

structure ClassFile where
  minorVersion : UInt16
  majorVersion : UInt16
  pool : ConstantPool
  access : UInt16
  thisClass : UInt16
  superClass : UInt16
  interfaces : List UInt16
  fields : List Member
  methods : List Member
  attributes : List Attribute
  deriving Inhabited

namespace ClassFile

/-- The name of the class. -/
def name (c : ClassFile) : Except Fault String := c.pool.className c.thisClass

/-- The superclass; index `0` stands for none. -/
def superName? (c : ClassFile) : Except Fault (Option String) :=
  if c.superClass = 0 then .ok none else some <$> c.pool.className c.superClass

def interfaceNames (c : ClassFile) : Except Fault (List String) :=
  c.interfaces.mapM c.pool.className

def isInterface (c : ClassFile) : Bool := Access.isInterface c.access

def memberName (c : ClassFile) (m : Member) : Except Fault String := c.pool.utf8 m.nameIndex

def memberDescriptor (c : ClassFile) (m : Member) : Except Fault String :=
  c.pool.utf8 m.descriptorIndex

/-- The attribute is readable and has the name. -/
def isAttribute (c : ClassFile) (name : String) (a : Attribute) : Bool :=
  match c.pool.utf8 a.nameIndex with
  | .ok text => text == name
  | .error _ => false

/-- The first attribute of the name. -/
def attribute? (c : ClassFile) (attributes : List Attribute) (name : String) : Option Attribute :=
  attributes.find? (c.isAttribute name)

end ClassFile

end DirectCall
