import DirectCall.Files.System
import DirectCall.Resource

/-!
# Writing modules

The effects that write the inputs of a pool beneath a directory, each under the file name that it was
read from and in the shape that it was read in.
-/

namespace DirectCall

/-- Effects that write an entry beneath a directory. -/
def ResourceEntry.writeBeneath (target : Path) (e : ResourceEntry) : List FileEffect :=
  let file := target.descend (Path.partsOf e.path)
  [.makeDirectories file.parent, .writeFile file e.bytes]

/-- Effects that write the entries of a module in the shape of its container. -/
def ContainerKind.writeEntries (target : Path) (entries : List ResourceEntry) :
    ContainerKind → List FileEffect
  | jar => [.writeArchive target (entries.map fun e => (e.path, e.bytes))]
  | directory => entries.flatMap (·.writeBeneath target)
  | classFile => entries.map fun e => .writeFile target e.bytes

namespace ResourcePool

/-- Effects that write modules beneath a directory, up to the first one whose path has no file name. -/
def writeModules (pool : ResourcePool) (output : Path) :
    List ResourceModule → List FileEffect × Option Path
  | [] => ([], none)
  | m :: rest =>
    match m.source.fileName? with
    | none => ([], some m.source)
    | some name =>
      let (effects, unnamed) := pool.writeModules output rest
      (m.kind.writeEntries (output.child name) (pool.entriesOf m) ++ effects, unnamed)

/-- Effects that write the inputs beneath a directory. They end at an input whose path has no file
name, which comes second. -/
def writeInputs (pool : ResourcePool) (output : Path) : List FileEffect × Option Path :=
  let (effects, unnamed) := pool.writeModules output pool.inputs
  (.makeDirectories output :: effects, unnamed)

end ResourcePool

end DirectCall
