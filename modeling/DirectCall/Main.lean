import DirectCall.Archive.Unzip
import DirectCall.CommandLine.Run
import DirectCall.CommandLine.Usage

/-!
# The command line program

Reads the files of a run, plans it and performs its effects. The names of the files in directories are
expected on standard input, one a line.
-/

namespace DirectCall.Program

/-- Lines of a stream up to its end. -/
partial def readLines (stream : IO.FS.Stream) (lines : Array String) : IO (Array String) := do
  let line ← stream.getLine
  if line.isEmpty then return lines
  else readLines stream (lines.push (line.trimAsciiEnd.toString))

/-- The number of an error in the operating system, where it may come with its sign turned. -/
def number? : IO.Error → Option Nat
  | .alreadyExists _ n _ | .noFileOrDirectory _ n _ | .invalidArgument _ n _ | .inappropriateType _ n _
  | .noSuchThing _ n _ | .otherError n _ => some (min n.toNat (0 - n).toNat)
  | _ => none

/-- The error that the operating system has a number for. -/
def fileError? (e : IO.Error) : Option FileError :=
  match number? e with
  | some 2 => some .missing
  | some 17 => some .alreadyThere
  | some 20 => some .notDirectory
  | some 21 => some .isDirectory
  | some 36 => some .nameTooLong
  | _ => none

/-- The bytes of a file, or why it cannot be read. -/
def readFile (name : String) : IO (Except FileError (List UInt8)) := do
  try return .ok (← IO.FS.readBinFile name).data.toList
  catch e => return .error ((fileError? e).getD .missing)

/-- A file; one with the name of a jar is an archive if it can be read as one. -/
def fileNode (p : Path) (bytes : List UInt8) : FileNode :=
  match p.extension?, Archive.decode? bytes with
  | some "jar", some entries => .file (.archive entries)
  | _, _ => .file (.data bytes)

/-- The directory of the listed files beneath a path. -/
def directoryNode (p : Path) (listing : Array String) : IO FileNode := do
  let mut node := FileNode.empty
  for name in listing do
    match afterStart? (p.child "").text name with
    | none => pure ()
    | some inside =>
      match ← readFile name with
      | .error _ => pure ()
      | .ok bytes => node := node.put (Path.partsOf inside) (.file (.data bytes))
  return node
where
  /-- What a text has after its start, if it starts so. -/
  afterStart? (start text : String) : Option String :=
    if start.toList.isPrefixOf text.toList then
      some (String.ofList (text.toList.drop start.toList.length))
    else none

/-- What stands at each path. -/
def look (paths : List Path) : IO (List (Path × Except FileError FileNode)) := do
  let found ← paths.mapM fun p => do return (p, ← readFile p.text)
  let listing ←
    if found.any fun (_, bytes) => bytes matches .error .isDirectory then
      readLines (← IO.getStdin) #[]
    else pure #[]
  found.mapM fun (p, bytes) => do
    match bytes with
    | .ok bytes => return (p, .ok (fileNode p bytes))
    | .error .isDirectory => return (p, .ok (← directoryNode p listing))
    | .error cause => return (p, .error cause)

/-- The cause of a failed access in the words of the operating system. -/
def causeText (e : IO.Error) : String := ((fileError? e).map (·.message)).getD (toString e)

/-- Makes a directory if it is not there yet. -/
def ensureDirectory (p : Path) : IO Unit := do
  try IO.FS.createDir p.text
  catch e =>
    let isDirectory := (← readFile p.text) matches .error .isDirectory
    if fileError? e = some .alreadyThere ∧ isDirectory then pure () else throw e

/-- Makes the first of some directories; the others are those around it, nearest first. -/
def ensureFirst : List Path → IO Unit
  | [] => pure ()
  | p :: around => do
    try ensureDirectory p
    catch e =>
      if fileError? e = some .missing then do
        ensureFirst around
        ensureDirectory p
      else throw e

/-- A report for a lone hyphen goes to standard output. -/
def perform : FileEffect → IO Unit
  | .makeDirectories p => ensureFirst p.outward
  | .writeFile p bytes => IO.FS.writeBinFile p.text ⟨bytes.toArray⟩
  | .writeArchive p entries => IO.FS.writeBinFile p.text ⟨(Archive.encode entries).toArray⟩
  | .writeReport p bytes => do
    if p.text = "-" then (← IO.getStdout).write ⟨bytes.toArray⟩
    else IO.FS.writeBinFile p.text ⟨bytes.toArray⟩

/-- Performs effects up to the first one that is turned down, whose message comes back. -/
def performAll : List FileEffect → IO (Option String)
  | [] => return none
  | e :: rest => do
    let failure ← try
        perform e
        pure none
      catch cause => pure (some (e.failure (causeText cause)))
    match failure with
    | some message => return some message
    | none => performAll rest

/-- Runs the program for its options; a message comes back if it did not go through. -/
def run (o : RunOptions) (invocation : List String) : IO (Option String) := do
  let found ← look (o.inputs ++ o.classpath)
  let find (p : Path) : Except FileError FileNode := (found.lookup p).getD (.error .missing)
  match o.plan [invocation] find with
  | .error fault => return some fault.message
  | .ok plan =>
    match ← performAll plan.effects with
    | some message => return some message
    | none => return plan.stop.map (·.message)

end DirectCall.Program

open DirectCall in
def main (arguments : List String) : IO UInt32 := do
  match CommandLine.parse arguments with
  | .error e =>
    IO.eprintln ("error: " ++ e.message ++ "\n\n" ++ CommandLine.usageText)
    return 2
  | .ok .showHelp =>
    IO.println CommandLine.usageText
    return 0
  | .ok .showVersion =>
    IO.println CommandLine.versionText
    return 0
  | .ok (.run o) =>
    match ← Program.run o (Report.toolName :: arguments) with
    | none => return 0
    | some message =>
      IO.eprintln ("Error: " ++ message)
      return 1
