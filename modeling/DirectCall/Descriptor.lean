import DirectCall.Primitive

/-!
# Field descriptors and class names

A field descriptor spells a type (`I`, `[J`, `La/B;`); a class constant names a class (`a/B`) or
spells an array type. This module converts between the two and gives slot widths.
-/

namespace DirectCall

namespace Descriptor

def isPrimitive (d : String) : Bool := (Primitive.ofDescriptor? d).isSome

/-- `long` and `double` take two slots. -/
def isWide (d : String) : Bool := d == "J" || d == "D"

/-- Slots of a field descriptor; an unset slot counts as one. -/
def size : Option String → Nat
  | some d => if isWide d then 2 else 1
  | none => 1

def isArray (d : String) : Bool := d.startsWith "["

/-- Descriptor of the type that a class constant names. -/
def ofClassName (className : String) : String :=
  if isArray className then className else "L" ++ className ++ ";"

/-- The class constant for a reference type. -/
def className? (d : String) : Option String :=
  match d.toList with
  | '[' :: _ => some d
  | 'L' :: rest =>
    if rest.getLast? = some ';' then some (String.ofList rest.dropLast) else none
  | _ => none

/-- Element type code of `newarray`. -/
def ofArrayCode? (code : UInt8) : Option String :=
  match code.toNat with
  | 4 => some "Z"
  | 5 => some "C"
  | 6 => some "F"
  | 7 => some "D"
  | 8 => some "B"
  | 9 => some "S"
  | 10 => some "I"
  | 11 => some "J"
  | _ => none

end Descriptor

namespace ClassName

/-- Text before the last `separator`, if there is one. -/
def beforeLast? (separator : Char) (text : List Char) : Option (List Char) :=
  match text.reverse.dropWhile (· ≠ separator) with
  | [] => none
  | _ :: before => some before.reverse

/-- Text after the last `separator`, if there is one. -/
def afterLast? (separator : Char) (text : List Char) : Option (List Char) :=
  if separator ∈ text then some (text.reverse.takeWhile (· ≠ separator)).reverse else none

/-- The package part of a class name or an entry path; empty for the unnamed package. -/
def package (className : String) : String :=
  match beforeLast? '/' className.toList with
  | some before => String.ofList before
  | none => ""

end ClassName

end DirectCall
