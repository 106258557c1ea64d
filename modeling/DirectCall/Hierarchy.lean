import DirectCall.Hierarchy.Closure

/-!
# Class hierarchy

Classes are collected first and frozen then. The frozen hierarchy answers questions about
subtyping; an answer is open (`none`) when an unknown class could decide it either way.
-/

namespace DirectCall

/-- The class that all classes and interfaces are subtypes of. -/
def objectClass : String := "java/lang/Object"

namespace ClassTable

/-- Adds a class; of two classes with one name the first stays. -/
def add (table : ClassTable) (header : ClassHeader) : Except Fault ClassTable :=
  if header.name.isEmpty then .error .namelessClass
  else if table.contains header.name then .ok table
  else .ok (table.insert header.name header)

/-- Adds the class that a class file declares; a module descriptor declares none. -/
def addFile (table : ClassTable) (bytes : List UInt8) : Except Fault ClassTable := do
  let c ← ClassFile.parse bytes
  if Access.isModule c.access then return table
  else table.add (← ClassHeader.ofClassFile c)

end ClassTable

structure Hierarchy where
  classes : ClassTable
  closures : Std.HashMap String Closure
  deriving Inhabited

namespace Hierarchy

/-- The hierarchy of the classes collected. -/
def freeze (table : ClassTable) : Hierarchy :=
  let interfaceCount := table.interfaceCount
  { classes := table
    closures := table.fold
      (fun closures name _ => closures.insert name (table.closureWith interfaceCount name)) ∅ }

def class? (h : Hierarchy) (name : String) : Option ClassHeader := h.classes[name]?

def closure? (h : Hierarchy) (name : String) : Option Closure := h.closures[name]?

/-- Number of classes. -/
def size (h : Hierarchy) : Nat := h.classes.size

/-! ## Subtyping -/

/-- Interfaces that every array type implements. -/
def isArrayInterface (name : String) : Bool :=
  name == "java/lang/Cloneable" || name == "java/io/Serializable"

/-- Component descriptor of an array type. -/
def component? (name : String) : Option String :=
  match name.toList with
  | '[' :: rest => some (String.ofList rest)
  | _ => none

/-- Assignability of field descriptors, given that of class names. A primitive type is assignable to
itself only. -/
def assignableBy (subtype : String → String → Option Bool) (target source : String) : Option Bool :=
  if target = source then some true
  else if Descriptor.isPrimitive target || Descriptor.isPrimitive source then some false
  else
    match Descriptor.className? target, Descriptor.className? source with
    | some target, some source => subtype target source
    | _, _ => some false

/-- Subtyping, for names of arrays of fewer than `depth` dimensions. -/
def subtypeWithin (h : Hierarchy) : Nat → String → String → Option Bool
  | 0, _, _ => none
  | depth + 1, target, source =>
    if target = source ∨ target = objectClass then some true
    else
      match component? source with
      | some component =>
        if isArrayInterface target then some true
        else
          match component? target with
          | some targetComponent => assignableBy (h.subtypeWithin depth) targetComponent component
          | none => some false
      | none =>
        if Descriptor.isArray target then some false
        else
          match h.closure? source with
          | none => none
          | some closure =>
            if closure.contains target then some true
            else if closure.complete then some false
            else none

/-- A value of class or array type `source` can be used where `target` is expected. -/
def isSubtype (h : Hierarchy) (target source : String) : Option Bool :=
  h.subtypeWithin (source.length + 1) target source

/-- A value of the type `source` can be used where `target` is expected. -/
def isAssignable (h : Hierarchy) (target source : String) : Option Bool :=
  assignableBy h.isSubtype target source

/-- The nearest common superclass; `Object` for interfaces and unknown classes. -/
def commonSuperclass (h : Hierarchy) (a b : String) : String :=
  if a = b then a
  else
    match h.class? a, h.class? b with
    | some first, some second =>
      if first.isInterface || second.isInterface then objectClass
      else if h.isSubtype a b = some true then a
      else if h.isSubtype b a = some true then b
      else
        match h.closure? a with
        | none => objectClass
        | some closure =>
          (closure.superclasses.find? fun above => h.isSubtype above b = some true).getD objectClass
    | _, _ => objectClass

/-- The methods of a class, then those of its superclasses and interfaces. -/
def methodsThrough (h : Hierarchy) (owner : String) (closure : Closure) : List MethodHeader :=
  (owner :: closure.superclasses ++ closure.interfaces).flatMap fun name =>
    match h.class? name with
    | some header => header.methods
    | none => []

/-- Checked exceptions that a method declares; the nearest declaration counts. -/
def declaredExceptions? (h : Hierarchy) (owner name descriptor : String) : Option (List String) :=
  match h.closure? owner with
  | none => none
  | some closure =>
    ((h.methodsThrough owner closure).find? fun m =>
      m.name == name && m.descriptor == descriptor).map (·.exceptions)

end Hierarchy

end DirectCall
