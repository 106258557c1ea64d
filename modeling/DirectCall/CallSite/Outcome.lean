import DirectCall.Hierarchy
import DirectCall.Body

/-!
# Outcomes

What became of a reflective call: it was replaced, or it was left alone for a reason.
-/

namespace DirectCall

/-- A kind of call that is replaced. -/
inductive Pass where
  /-- `invoke` on a method looked up by constants becomes a direct call. -/
  | getMethod
  /-- `forName` with a literal becomes a class constant. -/
  | forName
  deriving DecidableEq, Repr

namespace Pass

def name : Pass → String
  | getMethod => "get-method"
  | forName => "for-name"

def all : List Pass := [getMethod, forName]

end Pass

/-- Why a call was left alone. -/
inductive Refusal where
  | nonConstantLookup
  | arrayLengthMismatch
  | unresolvedMethod
  | declaredOnlyNonPublic
  | constructorOrInitializer
  | outsideModuleScope
  | unmovableArgumentCode
  | interfaceStaticVersion
  | classConstantVersion
  deriving DecidableEq, Repr

def Refusal.message : Refusal → String
  | nonConstantLookup => "non-constant lookup"
  | arrayLengthMismatch => "parameter array length mismatch"
  | unresolvedMethod => "unresolved method"
  | declaredOnlyNonPublic => "declared-only non-public method"
  | constructorOrInitializer => "constructor or initializer"
  | outsideModuleScope => "outside module scope"
  | unmovableArgumentCode => "unmovable argument code"
  | interfaceStaticVersion => "interface static call needs class file version 52"
  | classConstantVersion => "class constant needs class file version 49"

structure SiteOutcome where
  pass : Pass
  /-- The line that the call stands on, if lines are known. -/
  line : Option UInt16
  /-- The method or class that the call refers to. -/
  target : String
  /-- Why the call was left alone; `none` if it was replaced. -/
  refusal : Option Refusal
  deriving DecidableEq, Repr

namespace SiteOutcome

def isTransformed (o : SiteOutcome) : Bool := o.refusal.isNone

/-- The outcome in words. -/
def result (o : SiteOutcome) : String :=
  match o.refusal with
  | none => "transformed"
  | some r => "untransformed: " ++ r.message

end SiteOutcome

/-- A method with all that a pass over its body has to know. -/
structure MethodContext where
  method : MethodSig
  majorVersion : UInt16
  hierarchy : Hierarchy
  /-- Code in the class may name this class. -/
  canReference : String → Bool

/-- The line in effect at a position: the last marker at or ahead of it. -/
def Body.lineAt (body : Body) : Nat → Option UInt16
  | 0 => marker 0
  | p + 1 =>
    match marker (p + 1) with
    | some n => some n
    | none => body.lineAt p
where
  marker (p : Nat) : Option UInt16 :=
    match body.insns.insnAt p with
    | .line n => some n
    | _ => none

end DirectCall
