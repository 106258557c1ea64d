/-!
# Primitive types

The eight primitive types with their descriptor, their wrapper class and the accessor that takes the
value out of a wrapper.
-/

namespace DirectCall

inductive Primitive where
  | boolean
  | byte
  | char
  | short
  | int
  | long
  | float
  | double
  deriving DecidableEq, Repr

namespace Primitive

def all : List Primitive :=
  [boolean, byte, char, short, int, long, float, double]

def letter : Primitive → Char
  | boolean => 'Z'
  | byte => 'B'
  | char => 'C'
  | short => 'S'
  | int => 'I'
  | long => 'J'
  | float => 'F'
  | double => 'D'

def descriptor (p : Primitive) : String := String.singleton p.letter

/-- Internal name of the wrapper class. -/
def wrapper : Primitive → String
  | boolean => "java/lang/Boolean"
  | byte => "java/lang/Byte"
  | char => "java/lang/Character"
  | short => "java/lang/Short"
  | int => "java/lang/Integer"
  | long => "java/lang/Long"
  | float => "java/lang/Float"
  | double => "java/lang/Double"

/-- Keyword of the type. -/
def name : Primitive → String
  | boolean => "boolean"
  | byte => "byte"
  | char => "char"
  | short => "short"
  | int => "int"
  | long => "long"
  | float => "float"
  | double => "double"

/-- Name of the accessor of the wrapper class. -/
def unboxMethod (p : Primitive) : String := p.name ++ "Value"

def ofLetter? (c : Char) : Option Primitive :=
  all.find? (·.letter = c)

def ofDescriptor? (d : String) : Option Primitive :=
  all.find? (·.descriptor = d)

def ofWrapper? (className : String) : Option Primitive :=
  all.find? (·.wrapper = className)

end Primitive

end DirectCall
