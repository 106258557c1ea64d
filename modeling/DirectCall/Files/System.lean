import DirectCall.Files.Error
import DirectCall.Files.Path
import DirectCall.Files.Tree

/-!
# File systems

A file tree with the directory that paths start from, and what the operating system does with a path on
it: look something up, make a directory, write a file. A path is followed name by name, each name is
looked up in a directory, and only what the last one leads to may be a file or not be there.

What the program does to files is data. A run ends in a list of effects; performing them in order stops at
the first one that is turned down.
-/

namespace DirectCall

structure FileSystem where
  root : FileNode
  /-- Names from the root to the directory that a path without a slash in front starts from. -/
  home : List String
  deriving Repr

namespace FileSystem

/-- A file system that holds nothing but the way to where paths start. -/
def bare (home : List String) : FileSystem := ⟨FileNode.empty.put home .empty, home⟩

/-! ## Following a path -/

/-- Bytes that a name may have. -/
def maxNameSize : Nat := 255

/-- Bytes that the text of a path may have. -/
def maxPathSize : Nat := 4095

/-- Where a name leads from a place, both written innermost name first. Above the root is the root. -/
def step (fs : FileSystem) (here : List String) (name : String) : Except FileError (List String) :=
  match fs.root.at? here.reverse with
  | none => .error .missing
  | some (.file _) => .error .notDirectory
  | some (.directory _) =>
    if name = "." then .ok here
    else if name = ".." then .ok here.tail
    else if maxNameSize < name.utf8ByteSize then .error .nameTooLong
    else .ok (name :: here)

/-- The text of the path can be followed at all. -/
def checkText (p : Path) : Except FileError Unit :=
  if p.text.toList.contains '\x00' then .error .zeroInPath
  else if p.text.isEmpty then .error .missing
  else if maxPathSize < p.text.utf8ByteSize then .error .nameTooLong
  else .ok ()

/-- Names from the root to where some names lead from the start of a path. Nothing has to stand there,
but it is in a directory. -/
def follow (fs : FileSystem) (p : Path) (names : List String) : Except FileError (List String) := do
  checkText p
  let place ← names.foldlM fs.step (if p.isAbsolute then [] else fs.home.reverse)
  return place.reverse

/-- What stands at a path. -/
def find (fs : FileSystem) (p : Path) : Except FileError FileNode := do
  match fs.root.at? (← fs.follow p p.names) with
  | none => throw .missing
  | some (.file content) => if p.endsInSlash then throw .notDirectory else return .file content
  | some (.directory children) => return .directory children

def isDirectory (fs : FileSystem) (p : Path) : Bool :=
  match fs.find p with
  | .ok (.directory _) => true
  | _ => false

/-! ## Changes -/

/-- Makes a directory; the one that it stands in has to be there. -/
def makeDirectory (fs : FileSystem) (p : Path) : Except FileError FileSystem := do
  let names ← fs.follow p p.names
  match fs.root.at? names with
  | some _ => throw .alreadyThere
  | none => return { fs with root := fs.root.put names .empty }

/-- Makes a directory if it is not there yet. -/
def ensureDirectory (fs : FileSystem) (p : Path) : Except FileError FileSystem :=
  match fs.makeDirectory p with
  | .error .alreadyThere => if fs.isDirectory p then .ok fs else .error .alreadyThere
  | result => result

/-- Makes the first of some directories. The others are those around it, nearest first; they are made
as far as it takes. -/
def ensureFirst (fs : FileSystem) : List Path → Except FileError FileSystem
  | [] => .ok fs
  | p :: around =>
    match fs.ensureDirectory p with
    | .error .missing => do (← fs.ensureFirst around).ensureDirectory p
    | result => result

/-- Makes the directories of a path that are not there yet. -/
def makeDirectories (fs : FileSystem) (p : Path) : Except FileError FileSystem :=
  fs.ensureFirst p.outward

/-- Writes a file; the directory that it stands in has to be there. A path that ends in a slash names
no file. -/
def write (fs : FileSystem) (p : Path) (content : FileContent) : Except FileError FileSystem := do
  if p.endsInSlash then
    let _ ← fs.follow p (p.names.dropLast ++ ["."])
    throw .isDirectory
  let names ← fs.follow p p.names
  match fs.root.at? names with
  | some (.directory _) => throw .isDirectory
  | _ => return { fs with root := fs.root.put names (.file content) }

end FileSystem

/-! ## Effects -/

inductive FileEffect where
  /-- Makes a directory and those that lead to it. -/
  | makeDirectories (path : Path)
  | writeFile (path : Path) (bytes : List UInt8)
  | writeArchive (path : Path) (entries : List (String × List UInt8))
  | writeReport (path : Path) (bytes : List UInt8)
  deriving DecidableEq, Repr

/-- An effect that was turned down. -/
structure FailedEffect where
  effect : FileEffect
  cause : FileError
  deriving DecidableEq, Repr

namespace FileEffect

def path : FileEffect → Path
  | makeDirectories p | writeFile p _ | writeArchive p _ | writeReport p _ => p

/-- The verb for an effect that is turned down. -/
def verb : FileEffect → String
  | makeDirectories _ | writeArchive _ _ => "create"
  | writeFile _ _ => "write"
  | writeReport _ _ => "open"

/-- The file system after the effect. -/
def performOn (fs : FileSystem) : FileEffect → Except FileError FileSystem
  | makeDirectories p => fs.makeDirectories p
  | writeFile p bytes | writeReport p bytes => fs.write p (.data bytes)
  | writeArchive p entries => fs.write p (.archive entries)

/-- What went wrong, with the cause in the words of the operating system. -/
def failure (e : FileEffect) (cause : String) : String :=
  "failed to " ++ e.verb ++ " " ++ e.path.text ++ ": " ++ cause

/-- The file system after a list of effects, up to the first one that is turned down. -/
def performAll (fs : FileSystem) : List FileEffect → FileSystem × Except FailedEffect Unit
  | [] => (fs, .ok ())
  | e :: rest =>
    match e.performOn fs with
    | .ok after => performAll after rest
    | .error cause => (fs, .error ⟨e, cause⟩)

end FileEffect

def FailedEffect.message (f : FailedEffect) : String := f.effect.failure f.cause.message

end DirectCall
