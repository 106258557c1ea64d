import DirectCall.ClassFile.Format

/-!
# Module descriptors

What a module requires and exports, read from the module attribute of its descriptor class.
-/

namespace DirectCall

/-- An exported package; without targets it is exported to all modules. -/
structure ModuleExport where
  package : String
  targets : List String
  deriving DecidableEq, Repr

structure ModuleDescriptor where
  name : String
  requires : List String
  exports : List ModuleExport
  deriving DecidableEq, Repr

namespace ModuleDescriptor

def exportsTo (d : ModuleDescriptor) (package module : String) : Bool :=
  d.exports.any fun e => e.package == package && (e.targets.isEmpty || e.targets.contains module)

def requiresModule (d : ModuleDescriptor) (module : String) : Bool := d.requires.contains module

open Bytes Bytes.Reader

def moduleName (pool : ConstantPool) : Reader String := do
  Reader.lift (pool.moduleName (← u16))

/-- The name of a module with flags and version, which are skipped. -/
def readNamed (pool : ConstantPool) : Reader String := do
  let name ← moduleName pool
  let _ ← u16
  let _ ← u16
  return name

def readExport (pool : ConstantPool) : Reader ModuleExport := do
  let package ← Reader.lift (pool.packageName (← u16))
  let _ ← u16
  return ⟨package, ← Reader.table (moduleName pool)⟩

def read (pool : ConstantPool) : Reader ModuleDescriptor := do
  let name ← readNamed pool
  let requires ← Reader.table (readNamed pool)
  return ⟨name, requires, ← Reader.table (readExport pool)⟩

end ModuleDescriptor

/-- The module descriptor that a class carries. -/
def ClassFile.moduleDescriptor? (c : ClassFile) : Except Fault (Option ModuleDescriptor) :=
  match c.attribute? c.attributes "Module" with
  | none => .ok none
  | some a => some <$> (ModuleDescriptor.read c.pool).of a.info

end DirectCall
