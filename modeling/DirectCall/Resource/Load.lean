import DirectCall.Files.Error
import DirectCall.Files.Tree
import DirectCall.Resource

/-!
# Loading modules

A module is read from a directory, a jar or a single class file. Its name is the one in its
descriptor; without a descriptor it is the stem of its path.
-/

namespace DirectCall

/-- Why a module cannot be loaded. -/
inductive LoadFault where
  | unsupported (path : Path)
  | opening (path : Path) (cause : FileError)
  | reading (path : Path) (cause : FileError)
  | descriptor (path : Path) (cause : Fault)
  | duplicateModule (name : String) (path : Path)
  deriving DecidableEq, Repr

def LoadFault.message : LoadFault → String
  | unsupported path => "unsupported input file: " ++ path.text
  | opening path cause => "failed to open " ++ path.text ++ ": " ++ cause.message
  | reading path cause => "failed to read " ++ path.text ++ ": " ++ cause.message
  | descriptor path cause =>
    "failed to read module descriptor in " ++ path.text ++ ": " ++ cause.message
  | duplicateModule name path => "duplicate module " ++ name ++ " in " ++ path.text

/-- Files of a module by their paths in it. -/
abbrev ModuleFiles := List (String × List UInt8)

namespace ModuleFiles

/-- Files of a directory; the names on the way to a file are joined by slashes. -/
def ofDirectory (node : FileNode) : ModuleFiles :=
  node.files.map fun (names, content) => ("/".intercalate names, content.bytes)

/-- Files of an archive. Directory entries are left out, and of entries with one name the last one
counts, in the place of the first. -/
def ofArchive (entries : List (String × List UInt8)) : ModuleFiles :=
  (entries.foldl (fun files (name, bytes) => setNamed name bytes files) []).filter fun (name, _) =>
    name.toList.getLast? ≠ some '/' ∧ name.toList.getLast? ≠ some '\\'

/-- A class file alone; it stands where its class name puts it. One that cannot be read stands under
its file name. -/
def ofClassFile (p : Path) (bytes : List UInt8) : ModuleFiles :=
  match ClassFile.parse bytes >>= ClassFile.name with
  | .ok name => [(classFilePath name, bytes)]
  | .error _ => [(p.fileName?.getD "", bytes)]

end ModuleFiles

/-- Kind and files of what was found at a path. -/
def readContainer (p : Path) (found : Except FileError FileNode) :
    Except LoadFault (ContainerKind × ModuleFiles) :=
  match found, p.extension? with
  | .ok (.directory children), _ => .ok (.directory, .ofDirectory (.directory children))
  | .ok (.file (.archive entries)), some "jar" => .ok (.jar, .ofArchive entries)
  | .ok (.file (.data _)), some "jar" => .error (.reading p .notArchive)
  | .error cause, some "jar" => .error (.opening p cause)
  | .ok (.file content), some "class" => .ok (.classFile, .ofClassFile p content.bytes)
  | .error cause, some "class" => .error (.reading p cause)
  | _, _ => .error (.unsupported p)

/-- The descriptor among the files of a module. -/
def readDescriptor (files : ModuleFiles) : Except Fault (Option ModuleDescriptor) :=
  match files.lookup descriptorFile with
  | none => .ok none
  | some bytes => ClassFile.parse bytes >>= ClassFile.moduleDescriptor?

namespace ResourcePool

/-- Adds a module. -/
def addModule (pool : ResourcePool) (p : Path) (isInput : Bool) (kind : ContainerKind)
    (files : ModuleFiles) : Except LoadFault ResourcePool := do
  let descriptor ← (readDescriptor files).mapError (.descriptor p)
  let name := (descriptor.map (·.name)).getD p.stem
  if (pool.module? name).isSome then throw (.duplicateModule name p)
  return { modules := pool.modules ++ [⟨name, p, kind, descriptor, isInput⟩]
           entries := pool.entries ++ files.map fun (path, bytes) => ⟨name, path, bytes⟩ }

/-- Adds the module at a path, given what was found there. -/
def load (pool : ResourcePool) (isInput : Bool) (p : Path) (found : Except FileError FileNode) :
    Except LoadFault ResourcePool := do
  let (kind, files) ← readContainer p found
  pool.addModule p isInput kind files

/-- The pool of some inputs and of the modules to look things up in. -/
def ofPaths (find : Path → Except FileError FileNode) (inputs classpath : List Path) :
    Except LoadFault ResourcePool := do
  let pool ← inputs.foldlM (fun pool p => pool.load true p (find p)) empty
  classpath.foldlM (fun pool p => pool.load false p (find p)) pool

end ResourcePool

end DirectCall
