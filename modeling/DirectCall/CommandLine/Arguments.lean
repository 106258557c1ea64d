import DirectCall.Files.Path
import DirectCall.Transformation.Outcome

/-!
# Command line arguments

Options take their value from the same argument, after an equals sign, or from the next one. A value
is looked at when the next option with something to record, or the end, is reached.
-/

namespace DirectCall

/-- Options of the command line. -/
structure RunOptions where
  inputs : List Path := []
  classpath : List Path := []
  output : Option Path := none
  scope : Scope := .module
  report : Option Path := none
  disabled : List Pass := []
  quiet : Bool := false
  timing : Bool := false
  deriving DecidableEq, Repr

/-- What the command line asks for. -/
inductive Command where
  | run (options : RunOptions)
  | showHelp
  | showVersion
  deriving DecidableEq, Repr

/-- Why a command line is turned down. -/
inductive UsageError where
  | missingRequired
  | invalidValue
  | unknownArgument
  /-- What may be given once was given again. -/
  | conflict
  /-- A value for what takes none. -/
  | tooManyValues
  deriving DecidableEq, Repr

namespace CommandLine

/-- Options that take a value. -/
inductive ValueOption where
  | input
  | classpath
  | output
  | scope
  | report
  | disable
  deriving DecidableEq, Repr

/-- Options that take none. -/
inductive Flag where
  | quiet
  | timing
  | help
  | version
  deriving DecidableEq, Repr

def valueOption? (name : String) : Option ValueOption :=
  match name with
  | "input" => some .input
  | "classpath" => some .classpath
  | "output" => some .output
  | "scope" => some .scope
  | "report" => some .report
  | "disable" => some .disable
  | _ => none

def flag? (name : String) : Option Flag :=
  match name with
  | "quiet" => some .quiet
  | "timing" => some .timing
  | "help" => some .help
  | "version" => some .version
  | _ => none

/-- What was read so far. -/
structure Progress where
  options : RunOptions := {}
  scope : Option Scope := none
  /-- The option last read, if its value stands in an argument of its own, and the value. -/
  pending : Option (ValueOption × Option String) := none

/-- How reading goes on. -/
inductive Stop where
  | command (c : Command)
  | error (e : UsageError)

abbrev Step := Except Stop Progress

def fail (e : UsageError) : Except Stop α := .error (.error e)

def path (value : String) : Except Stop Path :=
  if value.isEmpty then fail .invalidValue else .ok (Path.ofText value)

def scope (value : String) : Except Stop Scope :=
  match value with
  | "module" => .ok .module
  | "global" => .ok .global
  | _ => fail .invalidValue

def pass (value : String) : Except Stop Pass :=
  match Pass.all.find? (·.name == value) with
  | some p => .ok p
  | none => fail .invalidValue

/-- The value of an option that may be given once. -/
def once (old : Option α) (value : Except Stop α) : Except Stop (Option α) :=
  match old with
  | some _ => fail .conflict
  | none => some <$> value

/-- Records the value of an option. -/
def record (p : Progress) (o : ValueOption) (value : String) : Step := do
  let options := p.options
  match o with
  | .input => return { p with options.inputs := options.inputs ++ [← path value] }
  | .classpath => return { p with options.classpath := options.classpath ++ [← path value] }
  | .output => return { p with options.output := ← once options.output (path value) }
  | .scope => return { p with scope := ← once p.scope (scope value) }
  | .report => return { p with options.report := ← once options.report (path value) }
  | .disable => return { p with options.disabled := options.disabled ++ [← pass value] }

/-- Records the option whose value was pending. -/
def settle (p : Progress) : Step :=
  match p.pending with
  | none => .ok p
  | some (_, none) => fail .invalidValue
  | some (o, some value) => record { p with pending := none } o value

def raise (p : Progress) : Flag → Step
  | .quiet => if p.options.quiet then fail .conflict else .ok { p with options.quiet := true }
  | .timing => if p.options.timing then fail .conflict else .ok { p with options.timing := true }
  | .help => .error (.command .showHelp)
  | .version => .error (.command .showVersion)

/-- Reads an argument that starts with two hyphens: a name, and a value after an equals sign. -/
def readLong (p : Progress) (name : String) (value : Option String) : Step :=
  match valueOption? name, flag? name, value with
  | some o, _, some value => do record (← settle p) o value
  | some o, _, none => do return { ← settle p with pending := some (o, none) }
  | none, some f, none => do raise (← settle p) f
  | none, some _, some _ => fail .tooManyValues
  | none, none, _ => fail .unknownArgument

/-- Reads letters after a hyphen. Each known one ends the reading. -/
def readShort (p : Progress) (letter : Char) : Step :=
  match letter with
  | 'h' => do raise (← settle p) .help
  | 'V' => do raise (← settle p) .version
  | _ => fail .unknownArgument

/-- Reads an argument that is no option: it has to be the value of one. -/
def readValue (p : Progress) (argument : String) : Step :=
  match p.pending with
  | some (o, none) => .ok { p with pending := some (o, some argument) }
  | _ => fail .unknownArgument

/-- A name and what follows the first equals sign. -/
def splitValue (argument : List Char) : String × Option String :=
  match argument.dropWhile (· ≠ '=') with
  | [] => (String.ofList argument, none)
  | _ :: value => (String.ofList (argument.takeWhile (· ≠ '=')), some (String.ofList value))

/-- Reads one argument; an argument of two hyphens alone does not come here. -/
def readArgument (p : Progress) (argument : String) : Step :=
  match argument.toList with
  | '-' :: '-' :: long =>
    let (name, value) := splitValue long
    readLong p name value
  | '-' :: letter :: _ => readShort p letter
  | _ => readValue p argument

/-- Reads arguments up to the end; two hyphens alone end the options. -/
def readAll (p : Progress) : List String → Step
  | [] => settle p
  | "--" :: rest => if rest.isEmpty then settle p else fail .unknownArgument
  | argument :: rest => do readAll (← readArgument p argument) rest

/-- The options that were read, if there are all that have to be. -/
def finish (p : Progress) : Except UsageError Command :=
  if p.options.inputs.isEmpty then .error .missingRequired
  else .ok (.run { p.options with scope := p.scope.getD p.options.scope })

/-- What the arguments after the name of the program ask for. -/
def parse (arguments : List String) : Except UsageError Command :=
  match readAll {} arguments with
  | .ok p => finish p
  | .error (.command c) => .ok c
  | .error (.error e) => .error e

end CommandLine

end DirectCall
