/-!
# Admission of class files

A class file is admitted if all of it follows the format: every constant is well spelt, every attribute
has a name whose layout is known here, and nothing is left over. Indices are not followed and code is
not looked into, so an admitted file may still turn out to be faulty.
-/

namespace DirectCall

namespace Admission

/-- Takes something off the front of the bytes, or does not admit them. -/
abbrev Scan := StateT (List UInt8) Option

/-! ## Numbers, counts and tables -/

def takeBytes (count : Nat) : Scan (List UInt8) := fun bytes =>
  let (taken, rest) := bytes.splitAt count
  if taken.length = count then some (taken, rest) else none

def skip (count : Nat) : Scan Unit := do let _ ← takeBytes count

/-- A big-endian number of `count` bytes. -/
def number (count : Nat) : Scan Nat := do
  return (← takeBytes count).foldl (fun n b => n * 256 + b.toNat) 0

def times (scan : Scan Unit) : Nat → Scan Unit
  | 0 => pure ()
  | count + 1 => do
    scan
    times scan count

/-- Items with their number in two bytes ahead of them. -/
def table (scan : Scan Unit) : Scan Unit := do times scan (← number 2)

/-- Items with their number in one byte ahead of them. -/
def shortTable (scan : Scan Unit) : Scan Unit := do times scan (← number 1)

/-! ## Constants -/

/-- The byte lies in a range, both ends included. -/
def isWithin (low high b : UInt8) : Bool := low ≤ b && b ≤ high

def isContinuation (b : UInt8) : Bool := isWithin 0x80 0xBF b

/-- Modified UTF-8 in which no group is longer than it need be, but for the one that stands for zero,
and in which surrogates come in pairs. -/
def isPairedText : List UInt8 → Bool
  | [] => true
  | a :: rest =>
    if a < 0x80 then a != 0 && isPairedText rest
    else if a = 0xC0 then
      match rest with
      | b :: rest => b == 0x80 && isPairedText rest
      | [] => false
    else if 0xC2 ≤ a && a ≤ 0xDF then
      match rest with
      | b :: rest => isContinuation b && isPairedText rest
      | [] => false
    else if a = 0xED then
      match rest with
      | b :: c :: rest =>
        if isWithin 0x80 0x9F b then isContinuation c && isPairedText rest
        else
          match rest with
          | d :: e :: f :: rest =>
            isWithin 0xA0 0xAF b && isContinuation c && d == 0xED && isWithin 0xB0 0xBF e
              && isContinuation f && isPairedText rest
          | _ => false
      | _ => false
    else if 0xE0 ≤ a && a ≤ 0xEF then
      match rest with
      | b :: c :: rest =>
        isWithin (if a = 0xE0 then 0xA0 else 0x80) 0xBF b && isContinuation c && isPairedText rest
      | _ => false
    else false

/-- A text may also be spelt in plain UTF-8, where a zero byte stands for itself. -/
def isText (bytes : List UInt8) : Bool :=
  (ByteArray.mk bytes.toArray).validateUTF8 || isPairedText bytes

/-- Slots of a constant pool; those that hold a text have its bytes. -/
abbrev Texts := Array (Option (List UInt8))

/-- The slots that a constant takes. -/
def constant : Scan (List (Option (List UInt8))) := do
  match ← number 1 with
  | 1 =>
    let text ← takeBytes (← number 2)
    if isText text then return [some text] else failure
  | 3 | 4 | 9 | 10 | 11 | 12 | 17 | 18 =>
    skip 4
    return [none]
  | 5 | 6 =>
    skip 8
    return [none, none]
  | 7 | 8 | 16 | 19 | 20 =>
    skip 2
    return [none]
  | 15 =>
    skip 3
    return [none]
  | _ => failure

/-- Constants until the slots are used up; each takes at least one of the `missing` ones. The last
constant may take one more than there are. -/
def constants (count : Nat) : Nat → Texts → Scan Texts
  | 0, texts => return texts
  | missing + 1, texts =>
    if texts.size < count then do
      constants count missing (texts ++ (← constant))
    else return texts

def constantPool : Scan Texts := do
  let count ← number 2
  constants count count #[none]

/-! ## Annotations and frames

What nests is scanned to a depth of `fuel`; every level takes a byte at least.
-/

/-- A value in an annotation, by its tag. -/
def elementValue : Nat → Scan Unit
  | 0 => failure
  | fuel + 1 => do
    match Char.ofNat (← number 1) with
    | 'B' | 'C' | 'D' | 'F' | 'I' | 'J' | 'S' | 'Z' | 's' | 'c' => skip 2
    | 'e' => skip 4
    | '[' => table (elementValue fuel)
    | '@' =>
      skip 2
      table do
        skip 2
        elementValue fuel
    | _ => failure

/-- A type and named values. -/
def annotationItem (fuel : Nat) : Scan Unit := do
  skip 2
  table do
    skip 2
    elementValue fuel

/-- The place that a type annotation is about, by its kind. -/
def annotationTarget : Scan Unit := do
  match ← number 1 with
  | 0x00 | 0x01 | 0x16 => skip 1
  | 0x11 | 0x12 => skip 2
  | 0x10 | 0x17 | 0x42 | 0x43 | 0x44 | 0x45 | 0x46 => skip 2
  | 0x13 | 0x14 | 0x15 => pure ()
  | 0x40 | 0x41 => table (skip 6)
  | 0x47 | 0x48 | 0x49 | 0x4A | 0x4B => skip 3
  | _ => failure

def typeAnnotationItem (fuel : Nat) : Scan Unit := do
  annotationTarget
  shortTable (skip 2)
  annotationItem fuel

def verificationType : Scan Unit := do
  let tag ← number 1
  if tag ≤ 6 then pure ()
  else if tag ≤ 8 then skip 2
  else failure

/-- An entry of a stack map, by its frame type. -/
def stackMapFrame : Scan Unit := do
  let type ← number 1
  if type < 64 then pure ()
  else if type < 128 then verificationType
  else if type < 247 then failure
  else if type = 247 then
    skip 2
    verificationType
  else if type < 252 then skip 2
  else if type < 255 then
    skip 2
    times verificationType (type - 251)
  else
    skip 2
    table verificationType
    table verificationType

/-! ## Attributes -/

/-- Content of an attribute, given how attributes within it are scanned. -/
def content (nested : Scan Unit) (fuel : Nat) (name : String) : Scan Unit :=
  match name with
  | "ConstantValue" | "SourceFile" | "Signature" | "NestHost" => skip 2
  | "Synthetic" | "Deprecated" => pure ()
  | "EnclosingMethod" => skip 4
  | "Exceptions" | "NestMembers" | "PermittedSubclasses" => table (skip 2)
  | "LineNumberTable" => table (skip 4)
  | "LocalVariableTable" | "LocalVariableTypeTable" => table (skip 10)
  | "InnerClasses" => table (skip 8)
  | "MethodParameters" => shortTable (skip 4)
  | "BootstrapMethods" => table do
    skip 2
    table (skip 2)
  | "RuntimeVisibleAnnotations" | "RuntimeInvisibleAnnotations" => table (annotationItem fuel)
  | "RuntimeVisibleParameterAnnotations" => shortTable (table (annotationItem fuel))
  | "RuntimeVisibleTypeAnnotations" => table (typeAnnotationItem fuel)
  | "AnnotationDefault" => elementValue fuel
  | "StackMapTable" => table stackMapFrame
  | "Record" => table do
    skip 4
    table nested
  | "Code" => do
    skip 4
    skip (← number 4)
    table (skip 8)
    table nested
  | _ => failure

/-- Attributes whose content is also kept as bytes. -/
def isKept (name : String) : Bool :=
  name == "RuntimeVisibleAnnotations" || name == "AnnotationDefault"

/-- So many bytes are still to come; none is taken. -/
def ahead (count : Nat) : Scan Unit := fun bytes =>
  if count ≤ bytes.length then some ((), bytes) else none

/-- An attribute. The length that it states says nothing about where its content ends; a kept one has
to be followed by so many bytes. -/
def anyAttribute (texts : Texts) : Nat → Scan Unit
  | 0 => failure
  | fuel + 1 => do
    match texts[← number 2]? with
    | some (some name) =>
      let stated ← number 4
      match String.fromUTF8? ⟨name.toArray⟩ with
      | some name =>
        if isKept name then ahead stated
        content (anyAttribute texts fuel) fuel name
      | none => failure
    | _ => failure

/-- A field or a method. -/
def member (texts : Texts) (fuel : Nat) : Scan Unit := do
  skip 6
  table (anyAttribute texts fuel)

def classFile (fuel : Nat) : Scan Unit := do
  if (← number 4) ≠ 0xCAFEBABE then failure
  skip 4
  let texts ← constantPool
  skip 6
  table (skip 2)
  table (member texts fuel)
  table (member texts fuel)
  table (anyAttribute texts fuel)

end Admission

/-- The bytes are a class file through and through. -/
def ClassFile.isAdmitted (bytes : List UInt8) : Bool :=
  match (Admission.classFile bytes.length).run bytes with
  | some ((), []) => true
  | _ => false

end DirectCall
