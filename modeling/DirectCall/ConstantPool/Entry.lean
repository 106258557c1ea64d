import DirectCall.Decimal.Text
import DirectCall.Text.Shown

/-!
# Constant pool entries
-/

namespace DirectCall.ConstantPool

/-- One slot of a constant pool; entries refer to each other by index. -/
inductive Entry where
  /-- Slot 0, and the slot after a long or double. -/
  | unusable
  | utf8 (text : String)
  | int (value : Int32)
  | float (bits : UInt32)
  | long (value : Int64)
  | double (bits : UInt64)
  | classRef (name : UInt16)
  | string (text : UInt16)
  | fieldRef (owner nameAndType : UInt16)
  | methodRef (owner nameAndType : UInt16)
  | interfaceMethodRef (owner nameAndType : UInt16)
  | nameAndType (name descriptor : UInt16)
  | methodHandle (kind : UInt8) (reference : UInt16)
  | methodType (descriptor : UInt16)
  | dynamic (bootstrap nameAndType : UInt16)
  | invokeDynamic (bootstrap nameAndType : UInt16)
  | module (name : UInt16)
  | package (name : UInt16)
  deriving DecidableEq, Repr, Inhabited

namespace Entry

/-- Longs and doubles take two slots. -/
def isWide : Entry → Bool
  | long _ => true
  | double _ => true
  | _ => false

/-- Slots that the entry takes. -/
def slots (e : Entry) : List Entry := if e.isWide then [e, unusable] else [e]

open Text.Shown (tuple)

/-- The entry inside a message. -/
def text : Entry → String
  | unusable => "Unusable"
  | utf8 text => tuple "Utf8" [Text.Quoted.quote text]
  | int value => tuple "Integer" [toString value.toInt]
  | float bits => tuple "Float" [Decimal.Format.single.text bits.toNat]
  | long value => tuple "Long" [toString value.toInt]
  | double bits => tuple "Double" [Decimal.Format.double.text bits.toNat]
  | classRef name => indices "Class" [name]
  | string text => indices "String" [text]
  | fieldRef a b => indices "FieldRef" [a, b]
  | methodRef a b => indices "MethodRef" [a, b]
  | interfaceMethodRef a b => indices "InterfaceMethodRef" [a, b]
  | nameAndType a b => indices "NameAndType" [a, b]
  | methodHandle kind index => tuple "MethodHandle" [toString kind.toNat, toString index.toNat]
  | methodType index => indices "MethodType" [index]
  | dynamic a b => indices "Dynamic" [a, b]
  | invokeDynamic a b => indices "InvokeDynamic" [a, b]
  | module index => indices "Module" [index]
  | package index => indices "Package" [index]
where
  indices (name : String) (items : List UInt16) : String :=
    tuple name (items.map fun item => toString item.toNat)

end Entry

/-- What an index is expected to lead to. -/
inductive Role where
  | utf8
  | classRef
  | module
  | package
  | nameAndType
  | member
  | invokeDynamic
  | loadable
  deriving DecidableEq, Repr

def Role.text : Role → String
  | utf8 => "utf8"
  | classRef => "a class"
  | module => "a module"
  | package => "a package"
  | nameAndType => "a name-and-type"
  | member => "a member reference"
  | invokeDynamic => "invokedynamic"
  | loadable => "loadable"

end DirectCall.ConstantPool
