import DirectCall.ClassFile
import DirectCall.ConstantPool.Format

/-!
# Class files as bytes

Reader and writer of class files and of code attributes. Nothing is decoded that is not needed, so
that a class file written back is the one that was read.
-/

namespace DirectCall

open Bytes Bytes.Reader

namespace Attribute

def read : Reader Attribute := do
  let nameIndex ← u16
  let length ← number 4
  return ⟨nameIndex, ← bytes length⟩

def write (a : Attribute) : Except Fault (List UInt8) :=
  if a.info.length < 0x100000000 then
    .ok (ofUInt16 a.nameIndex ++ ofUInt32 a.info.length.toUInt32 ++ a.info)
  else .error .attributeTooLong

end Attribute

namespace Member

def read : Reader Member := do
  let access ← u16
  let nameIndex ← u16
  let descriptorIndex ← u16
  return ⟨access, nameIndex, descriptorIndex, ← Reader.table Attribute.read⟩

def write (m : Member) : Except Fault (List UInt8) := do
  return ofUInt16 m.access ++ ofUInt16 m.nameIndex ++ ofUInt16 m.descriptorIndex
    ++ (← Bytes.table m.attributes Attribute.write)

end Member

namespace HandlerRange

def read : Reader HandlerRange := do
  let start ← u16
  let stop ← u16
  let handler ← u16
  return ⟨start, stop, handler, ← u16⟩

def write (h : HandlerRange) : List UInt8 :=
  ofUInt16 h.start ++ ofUInt16 h.stop ++ ofUInt16 h.handler ++ ofUInt16 h.catchType

end HandlerRange

namespace CodeAttribute

/-- Reads the content of a code attribute; bytes after it are ignored. -/
def read : Reader CodeAttribute := do
  let maxStack ← u16
  let maxLocals ← u16
  let length ← number 4
  let code ← bytes length
  let handlers ← Reader.table HandlerRange.read
  return ⟨maxStack, maxLocals, code, handlers, ← Reader.table Attribute.read⟩

def parse (info : List UInt8) : Except Fault CodeAttribute := read.of info

def toBytes (c : CodeAttribute) : Except Fault (List UInt8) :=
  if c.code.isEmpty ∨ 65536 ≤ c.code.length then .error (.codeLength c.code.length)
  else do
    return ofUInt16 c.maxStack ++ ofUInt16 c.maxLocals ++ ofUInt32 c.code.length.toUInt32 ++ c.code
      ++ (← Bytes.table c.handlers fun h => .ok h.write)
      ++ (← Bytes.table c.attributes Attribute.write)

end CodeAttribute

namespace ClassFile

/-- First four bytes of a class file. -/
def magic : UInt32 := 0xCAFEBABE

def read : Reader ClassFile := do
  let found ← reading .readingMagic u32
  if found ≠ magic then throw (.badMagic found.toNat)
  let minorVersion ← u16
  let majorVersion ← u16
  let pool ← reading .readingPool ConstantPool.read
  let access ← u16
  let thisClass ← u16
  let superClass ← u16
  let interfaces ← Reader.table u16
  let fields ← reading .readingFields (Reader.table Member.read)
  let methods ← reading .readingMethods (Reader.table Member.read)
  let attributes ← reading .readingClassAttributes (Reader.table Attribute.read)
  return { minorVersion, majorVersion, pool, access, thisClass, superClass, interfaces, fields,
           methods, attributes }

/-- The class file that all of the bytes spell. -/
def parse (bytes : List UInt8) : Except Fault ClassFile := do
  let (c, cursor) ← read (.start bytes)
  if cursor.rest.isEmpty then return c else throw (.trailingBytes cursor.offset)

def toBytes (c : ClassFile) : Except Fault (List UInt8) := do
  let pool ← c.pool.write
  let interfaces ← Bytes.table c.interfaces fun i => .ok (ofUInt16 i)
  let fields ← Bytes.table c.fields Member.write
  let methods ← Bytes.table c.methods Member.write
  let attributes ← Bytes.table c.attributes Attribute.write
  return ofUInt32 magic ++ ofUInt16 c.minorVersion ++ ofUInt16 c.majorVersion ++ pool
    ++ ofUInt16 c.access ++ ofUInt16 c.thisClass ++ ofUInt16 c.superClass ++ interfaces ++ fields
    ++ methods ++ attributes

/-- Classes that a method declares to throw. -/
def exceptions (c : ClassFile) (method : Member) : Except Fault (List String) :=
  match c.attribute? method.attributes "Exceptions" with
  | none => .ok []
  | some a => (Reader.table do Reader.lift (c.pool.className (← u16))).of a.info

/-- The code of a method. -/
def code? (c : ClassFile) (method : Member) : Except Fault (Option CodeAttribute) :=
  match c.attribute? method.attributes "Code" with
  | none => .ok none
  | some a => some <$> CodeAttribute.parse a.info

end ClassFile

end DirectCall
