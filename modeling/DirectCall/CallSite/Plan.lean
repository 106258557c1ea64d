import DirectCall.CallSite.Outcome
import DirectCall.CallSite.Span
import DirectCall.Hierarchy.Resolve

/-!
# Planning a direct call

A call of `invoke` has three operands: the method object, the receiver and the argument array. It
can be replaced if the method is known and may be called from here, the array has the right length,
and the code of the method object can be removed.
-/

namespace DirectCall

/-- How the argument array reaches the direct call. -/
inductive Arguments where
  /-- No arguments; the code of the array is removed, or else the array is popped. -/
  | none (code : Option Span)
  /-- The array is in a local, from which `load` pushed it. -/
  | inLocal (var : UInt16) (load : Span)
  /-- The array is stored at the call. -/
  | stored
  /-- The code of the array moves ahead of the receiver and is stored there. -/
  | moved (code : Span) (receiver : Nat)
  deriving DecidableEq, Repr

/-- The code that goes away or moves with the arguments. -/
def Arguments.span? : Arguments → Option Span
  | none code => code
  | inLocal _ load => some load
  | stored => Option.none
  | moved code _ => some code

structure PlannedSite where
  position : Nat
  resolved : ResolvedMethod
  parsed : MethodDescriptor
  /-- The code of the method object. -/
  methodCode : Span
  /-- The load that is all of that code. -/
  methodLoad : Option NodeId
  arguments : Arguments

namespace PlannedSite

/-- Positions whose code the site uses up. -/
def used (p : PlannedSite) : List Nat :=
  p.methodCode.positions ++ (p.arguments.span?.map (·.positions)).getD []

end PlannedSite

/-- What the site refers to, and why it is left alone. -/
abbrev Rejection := String × Refusal

namespace MethodContext

/-- The method that a look-up finds. -/
def resolve (ctx : MethodContext) (m : MethodLookup) : Except Refusal ResolvedMethod :=
  let found :=
    if m.declaredOnly then ctx.hierarchy.resolveDeclared m.className m.methodName m.params
    else ctx.hierarchy.resolve m.className m.methodName m.params
  if ctx.hierarchy.isDeclaredOnly m then .error .declaredOnlyNonPublic
  else
    match found with
    | some resolved => .ok resolved
    | none => .error .unresolvedMethod

/-- The method and the descriptor of a site that may become a direct call, as far as the operands
are concerned. -/
def target (ctx : MethodContext) (m : MethodLookup) (array : Option ConstantValue) :
    Except Refusal (ResolvedMethod × MethodDescriptor × Int32) := do
  if m.methodName.startsWith "<" then throw .constructorOrInitializer
  let resolved ← ctx.resolve m
  match array with
  | some (.array _ _ length _) =>
    match MethodDescriptor.parse resolved.descriptor with
    | .error _ => throw .unresolvedMethod
    | .ok parsed =>
      if length.toInt ≠ parsed.params.length then throw .arrayLengthMismatch
      else if !ctx.canReference resolved.owner then throw .outsideModuleScope
      else if resolved.isStatic && resolved.ownerIsInterface && ctx.majorVersion < 52 then
        throw .interfaceStaticVersion
      else return (resolved, parsed, length)
  | _ => throw .nonConstantLookup

end MethodContext

namespace SiteAnalysis

/-- Operands of `invoke`: method object, receiver, argument array. -/
def invokeArity : Nat := 3

/-- The array code can run ahead of the receiver code. -/
def canSwap (a : SiteAnalysis) (position : Nat) (array receiver : Span) : Bool :=
  let between := (Span.mk receiver.start array.start).positions
  decide (receiver.stop ≤ array.start) && a.isMovable array position 2 invokeArity
    && a.isRemovable receiver position 1 invokeArity
    && between.all (fun p => a.isPure p receiver || a.isPure p array)
    && between.all (fun p => !a.isBoundary p && !a.isHandler p)
    && (Span.mk array.stop position).positions.all fun p => !a.isReal p

/-- Arguments in an array that has to be stored: ahead of the receiver if its code can move there,
else at the call. -/
def storedArguments (a : SiteAnalysis) (position : Nat) (array : Option Span) : Arguments :=
  match array, a.spanOf position 1 invokeArity with
  | some array, some receiver =>
    if a.canSwap position array receiver then .moved array receiver.start else .stored
  | _, _ => .stored

def arguments (a : SiteAnalysis) (position : Nat) (length : Int32) : Arguments :=
  let array := a.spanOf position 2 invokeArity
  if length = 0 then .none (array.filter fun s => a.isRemovable s position 2 invokeArity)
  else
    match array with
    | none => .stored
    | some s =>
      if s.stop - s.start = 1 ∨ a.realCount s = 1 then
        match a.loadedLocal? s with
        | some var =>
          if a.isRemovable s position 2 invokeArity ∧ a.localUnchanged var s.stop position then
            .inLocal var s
          else a.storedArguments position (some s)
        | none => a.storedArguments position (some s)
      else a.storedArguments position (some s)

/-- The code of the method object, if it can be removed. -/
def methodCode? (a : SiteAnalysis) (position : Nat) : Option Span :=
  (a.spanOf position 0 invokeArity).filter fun s => a.isRemovable s position 0 invokeArity

/-- The load of a local that is all of the code of the method object. -/
def methodLoad? (a : SiteAnalysis) (s : Span) : Option NodeId :=
  match a.insnAt s.start with
  | .var code _ => if code = Opcode.aload ∧ a.realCount s = 1 then some (a.idAt s.start) else none
  | _ => none

/-- The plan for the call at a position, given the code that is used up already. -/
def plan (a : SiteAnalysis) (ctx : MethodContext) (spent : Std.HashSet Nat) (position : Nat)
    (frame : Frame ConstantValue) : Except Rejection PlannedSite :=
  match frame.peek? 2 with
  | some (.method m) => do
    let reject (r : Refusal) : Rejection := (m.text, r)
    let (resolved, parsed, length) ← (ctx.target m (frame.peek? 0)).mapError reject
    match a.methodCode? position with
    | none => throw (reject .unmovableArgumentCode)
    | some code =>
      let site : PlannedSite :=
        { position, resolved, parsed
          methodCode := code
          methodLoad := a.methodLoad? code
          arguments := a.arguments position length }
      if site.used.any spent.contains then throw (reject .unmovableArgumentCode) else return site
  | _ => throw ("?", .nonConstantLookup)

end SiteAnalysis

end DirectCall
