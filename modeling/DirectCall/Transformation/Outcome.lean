import DirectCall.CallSite.Outcome
import DirectCall.Resource

/-!
# Outcomes of a transformation

Settings of a run over a pool, and what it reports: the call sites it saw and the entries it gave up.
-/

namespace DirectCall

/-- Where code may name a class. -/
inductive Scope where
  /-- The class can be read from the module of the code. -/
  | module
  /-- Anywhere. -/
  | global
  deriving DecidableEq, Repr

def Scope.name : Scope → String
  | module => "module"
  | global => "global"

structure Settings where
  scope : Scope
  disabled : List Pass
  deriving DecidableEq, Repr

/-- Module scope, and no pass left out. -/
def Settings.standard : Settings := ⟨.module, []⟩

def Settings.isEnabled (s : Settings) (p : Pass) : Bool := !s.disabled.contains p

/-- Part of the work on a class. -/
inductive Stage where
  | parse
  | decode
  | analyze
  /-- Dropping handlers and code that cannot be reached any more. -/
  | prune
  | encode
  deriving DecidableEq, Repr

def Stage.name : Stage → String
  | parse => "parse"
  | decode => "decode"
  | analyze => "analyze"
  | prune => "rewrite"
  | encode => "encode"

/-- Why the work on a class was given up. -/
inductive StageFault where
  /-- The class file was not admitted. -/
  | inadmissible
  | failed (stage : Stage) (cause : Fault)
  deriving DecidableEq, Repr

namespace StageFault

def stage : StageFault → Stage
  | inadmissible => .parse
  | failed stage _ => stage

def message : StageFault → String
  | inadmissible => "invalid class file"
  | failed _ cause => cause.message

end StageFault

/-- Names the stage that a result comes from. -/
def inStage (stage : Stage) (result : Except Fault α) : Except StageFault α :=
  result.mapError (.failed stage)

/-- A call site with the method that it stands in. -/
structure CallSite where
  className : String
  method : String
  descriptor : String
  outcome : SiteOutcome
  deriving DecidableEq, Repr

/-- A call site with the entry that its class was read from. -/
structure SiteRecord where
  moduleName : String
  path : String
  site : CallSite
  deriving DecidableEq, Repr

/-- An entry that stays as it was because the work on it was given up. -/
structure EntryFailure where
  label : String
  fault : StageFault
  deriving DecidableEq, Repr

/-- What a run over a pool leaves. -/
structure PoolOutcome where
  pool : ResourcePool
  sites : List SiteRecord
  failures : List EntryFailure
  /-- Class entries of inputs. -/
  classes : Nat
  /-- Entries with new bytes. -/
  changed : Nat
  deriving Repr

/-- Number of call sites that were replaced. -/
def PoolOutcome.transformed (o : PoolOutcome) : Nat :=
  o.sites.countP (·.site.outcome.isTransformed)

end DirectCall
