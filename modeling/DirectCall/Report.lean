import DirectCall.Report.Document
import DirectCall.Transformation.Outcome

/-!
# Reports

The log of a run in the static analysis results interchange format: a result for every call site,
then one for every entry that was given up.
-/

namespace DirectCall

namespace Report

open Document

structure Rule where
  id : String
  name : String
  description : String

def methodCallRule : Rule :=
  ⟨"CLASS_GET_METHOD", "Reflective method call",
    "Method.invoke on a constant getMethod/getDeclaredMethod lookup"⟩

def classLookupRule : Rule :=
  ⟨"CLASS_FOR_NAME", "Reflective class lookup", "Class.forName with a string literal"⟩

def entryFailureRule : Rule :=
  ⟨"ENTRY_FAILURE", "Entry left unchanged",
    "An entry could not be transformed and was passed through"⟩

def rules : List Rule := [methodCallRule, classLookupRule, entryFailureRule]

def ruleFor : Pass → Rule
  | .getMethod => methodCallRule
  | .forName => classLookupRule

def Rule.document (r : Rule) : Document :=
  .object [("id", .text r.id), ("name", .text r.name),
    ("shortDescription", single "text" (.text r.description))]

/-! ## Results -/

/-- What a result says of a call site. -/
def siteText (o : SiteOutcome) : String :=
  match o.refusal with
  | none => "transformed " ++ o.target
  | some reason => "untransformed " ++ o.target ++ ": " ++ reason.message

/-- What a result says of an entry that was given up. -/
def failureText (f : EntryFailure) : String :=
  f.label ++ " failed at " ++ f.fault.stage.name ++ ": " ++ f.fault.message

/-- Where an entry is to be found: in a jar, in a directory, or as the container itself. -/
def entryUri (m : ResourceModule) (path : String) : String :=
  match m.kind with
  | .jar => "jar:" ++ m.source.text ++ "!/" ++ path
  | .directory => m.source.text ++ "/" ++ path
  | .classFile => m.source.text

/-- Where the entry of a call site is to be found. -/
def siteUri (pool : ResourcePool) (s : SiteRecord) : String :=
  match pool.module? s.moduleName with
  | some m => entryUri m s.path
  | none => s.path

/-- A place in the terms of the program. -/
def logicalPlace (kind name : String) : String × Document :=
  ("logicalLocations", .array [.object [("kind", .text kind), ("name", .text name)]])

def result (r : Rule) (text : String) (place : List (String × Document)) : Document :=
  .object [("locations", .array [.object place]), ("message", single "text" (.text text)),
    ("ruleId", .text r.id)]

def siteResult (pool : ResourcePool) (s : SiteRecord) : Document :=
  let o := s.site.outcome
  let region := o.line.toList.map fun line => ("region", single "startLine" (.number line.toNat))
  result (ruleFor o.pass) (siteText o)
    [logicalPlace "function" (s.site.className ++ "." ++ s.site.method ++ s.site.descriptor),
     ("physicalLocation",
      .object (("artifactLocation", single "uri" (.text (siteUri pool s))) :: region))]

def failureResult (f : EntryFailure) : Document :=
  result entryFailureRule (failureText f) [logicalPlace "module" f.label]

/-! ## The log -/

/-- The inputs of a run; there is no field for them if there are none. -/
def artifacts (pool : ResourcePool) : List (String × Document) :=
  let items := pool.inputs.map fun m => Document.object
    [("location", single "uri" (.text m.source.text)), ("roles", .array [.text "analysisTarget"])]
  if items.isEmpty then [] else [("artifacts", .array items)]

/-- How the program was called. -/
def invocation (arguments : List String) : Document :=
  .object [("arguments", .array (arguments.map .text)),
    ("commandLine", .text (" ".intercalate arguments)), ("executionSuccessful", .flag true)]

def toolName : String := "unreflect"

def toolVersion : String := "0.1.0"

def tool : Document :=
  single "driver" <| .object
    [("name", .text toolName), ("rules", .array (rules.map (·.document))),
     ("version", .text toolVersion)]

/-- The address of something on a host. -/
def address (host path : String) : String := "https:" ++ "//" ++ host ++ "/" ++ path

/-- The schema that a log follows. -/
def schema : String := address "schemastore.azurewebsites.net" "schemas/json/sarif-2.1.0.json"

/-- The log of a run; `invocations` says how the program was called, if it is known. -/
def log (o : PoolOutcome) (invocations : List (List String)) : Document :=
  let calls := if invocations.isEmpty then []
    else [("invocations", Document.array (invocations.map invocation))]
  let results := o.sites.map (siteResult o.pool) ++ o.failures.map failureResult
  .object
    [("$schema", .text schema),
     ("runs", .array [.object
       (artifacts o.pool ++ calls ++ [("results", .array results), ("tool", tool)])]),
     ("version", .text "2.1.0")]

end Report

end DirectCall
