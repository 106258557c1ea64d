import DirectCall.CommandLine.Arguments
import DirectCall.Report
import DirectCall.Resource.Load
import DirectCall.Resource.Output
import DirectCall.Transformation

/-!
# Runs

What a run does for its options: it looks at all that it was given, transforms it, and ends in effects
on files. Nothing is written before all modules are loaded and transformed.
-/

namespace DirectCall

inductive RunFault where
  | inputMissing (path : Path)
  | classpathMissing (path : Path)
  | loading (cause : LoadFault)
  /-- An input has no name to be written under. -/
  | unnamedInput (path : Path)
  | effect (cause : FailedEffect)
  deriving DecidableEq, Repr

def RunFault.message : RunFault → String
  | inputMissing path => "input not found: " ++ path.text
  | classpathMissing path => "classpath entry not found: " ++ path.text
  | loading cause => cause.message
  | unnamedInput path => "input without a file name: " ++ path.text
  | effect cause => cause.message

/-- What a run comes to: its effects, and what stops it after them. -/
structure RunPlan where
  outcome : PoolOutcome
  effects : List FileEffect
  stop : Option RunFault

namespace RunOptions

def settings (o : RunOptions) : Settings := ⟨o.scope, o.disabled⟩

/-- Every path leads to something. -/
def checkPresent (find : Path → Except FileError FileNode) (missing : Path → RunFault)
    (paths : List Path) : Except RunFault Unit :=
  paths.forM fun p =>
    match find p with
    | .ok _ => .ok ()
    | .error _ => .error (missing p)

/-- The effect that writes the report. -/
def reportEffect (o : RunOptions) (outcome : PoolOutcome) (invocations : List (List String)) :
    List FileEffect :=
  o.report.toList.map fun p =>
    .writeReport p (Report.log outcome invocations).render.toUTF8.data.toList

/-- The run over what is found at the paths of the options. -/
def plan (o : RunOptions) (invocations : List (List String)) (find : Path → Except FileError FileNode) :
    Except RunFault RunPlan := do
  checkPresent find .inputMissing o.inputs
  checkPresent find .classpathMissing o.classpath
  let pool ← (ResourcePool.ofPaths find o.inputs o.classpath).mapError .loading
  let outcome := pool.transform o.settings
  let report := o.reportEffect outcome invocations
  match o.output.map outcome.pool.writeInputs with
  | none => return ⟨outcome, report, none⟩
  | some (effects, none) => return ⟨outcome, effects ++ report, none⟩
  | some (effects, some unnamed) => return ⟨outcome, effects, some (.unnamedInput unnamed)⟩

/-- The run on a file system: what it leaves behind, and whether it went through. -/
def runOn (o : RunOptions) (fs : FileSystem) : FileSystem × Except RunFault Unit :=
  match o.plan [] fs.find with
  | .error fault => (fs, .error fault)
  | .ok plan =>
    let (after, performed) := FileEffect.performAll fs plan.effects
    match performed, plan.stop with
    | .error failed, _ => (after, .error (.effect failed))
    | .ok (), some fault => (after, .error fault)
    | .ok (), none => (after, .ok ())

end RunOptions

end DirectCall
