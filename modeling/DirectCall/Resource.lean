import DirectCall.ClassFile.ModuleDescriptor
import DirectCall.Files.Path

/-!
# Resource pools

The modules that a run works on, with their entries in order, and what one module can see of another.
No two modules of a pool have the same name.
-/

namespace DirectCall

/-- What a module was read from. Output keeps the shape. -/
inductive ContainerKind where
  | jar
  | directory
  | classFile
  deriving DecidableEq, Repr

structure ResourceModule where
  name : String
  source : Path
  kind : ContainerKind
  descriptor : Option ModuleDescriptor
  /-- Inputs are transformed and written; other modules are only looked things up in. -/
  isInput : Bool
  deriving Repr

namespace ResourceModule

/-- A module without a descriptor exports nothing. -/
def exportsTo (m : ResourceModule) (package other : String) : Bool :=
  m.descriptor.any (·.exportsTo package other)

/-- A module without a descriptor requires nothing. -/
def requiresModule (m : ResourceModule) (other : String) : Bool :=
  m.descriptor.any (·.requiresModule other)

end ResourceModule

/-- Name of the class file that describes a module. -/
def descriptorFile : String := "module-info.class"

/-- A file of a module. -/
structure ResourceEntry where
  moduleName : String
  path : String
  bytes : List UInt8
  deriving DecidableEq, Repr

/-- What a text has ahead of its ending, if it ends so. -/
def beforeEnding? (ending text : String) : Option String :=
  if ending.toList.isSuffixOf text.toList then
    some (String.ofList (text.toList.take (text.toList.length - ending.toList.length)))
  else none

/-- Path of the class file of a class. -/
def classFilePath (className : String) : String := className ++ ".class"

namespace ResourceEntry

/-- The class name that the path spells; a module descriptor spells none. -/
def className? (e : ResourceEntry) : Option String :=
  match beforeEnding? descriptorFile e.path with
  | some _ => none
  | none => beforeEnding? ".class" e.path

/-- The entry is a class file other than a module descriptor. -/
def isClass (e : ResourceEntry) : Bool := e.className?.isSome

def package (e : ResourceEntry) : String := ClassName.package (e.className?.getD e.path)

/-- The entry in messages. -/
def label (e : ResourceEntry) : String := e.moduleName ++ ":" ++ e.path

end ResourceEntry

structure ResourcePool where
  modules : List ResourceModule
  /-- The entries of all modules, module by module. -/
  entries : List ResourceEntry
  deriving Repr

namespace ResourcePool

def empty : ResourcePool := ⟨[], []⟩

def module? (pool : ResourcePool) (name : String) : Option ResourceModule :=
  pool.modules.find? (·.name == name)

def inputs (pool : ResourcePool) : List ResourceModule := pool.modules.filter (·.isInput)

def entriesOf (pool : ResourcePool) (m : ResourceModule) : List ResourceEntry :=
  pool.entries.filter (·.moduleName == m.name)

/-- The entry belongs to an input. -/
def isOfInput (pool : ResourcePool) (e : ResourceEntry) : Bool :=
  (pool.module? e.moduleName).any (·.isInput)

/-! ## Looking entries up -/

/-- The entry of a module at a path. -/
def entry? (pool : ResourcePool) (moduleName path : String) : Option ResourceEntry :=
  pool.entries.find? fun e => e.path == path && e.moduleName == moduleName

/-- The entry at a path as another entry sees it: that of its own module, else the first of all. -/
def entryFrom? (pool : ResourcePool) (origin : ResourceEntry) (path : String) :
    Option ResourceEntry :=
  (pool.entry? origin.moduleName path).or (pool.entries.find? (·.path == path))

/-- The origin can read the target: both lie in one module, or the module of the target exports its
package to the module of the origin, which requires it. -/
def isReadable (pool : ResourcePool) (origin target : ResourceEntry) : Bool :=
  target.moduleName == origin.moduleName ||
    match pool.module? target.moduleName, pool.module? origin.moduleName with
    | some theirs, some ours =>
      theirs.exportsTo target.package ours.name && ours.requiresModule theirs.name
    | _, _ => false

/-! ## Changing entries -/

/-- Replaces the bytes of entries by their number; a number without an entry is ignored. -/
def replace (pool : ResourcePool) (changes : List (Nat × List UInt8)) : ResourcePool :=
  { pool with
    entries := changes.foldl
      (fun entries (i, bytes) => entries.modify i fun e => { e with bytes := bytes }) pool.entries }

end ResourcePool

end DirectCall
