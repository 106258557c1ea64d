import DirectCall.Flow.Prune
import DirectCall.Hierarchy
import DirectCall.Insn.Reflection

/-!
# Handlers of reflective failures

Once reflective calls are gone, the handlers of the failures that only they raise may be dead.
`Body.pruneHandlers` removes their regions, and the code that becomes unreachable.
-/

namespace DirectCall

/-- Checked exceptions that only reflection raises. -/
def reflectiveFailures : List String :=
  ["java/lang/NoSuchMethodException", "java/lang/IllegalAccessException"]

/-- Classes that all of them extend. -/
def failureAncestors : List String :=
  ["java/lang/ReflectiveOperationException", "java/lang/Exception", "java/lang/Throwable"]

namespace Hierarchy

/-- A method that declares to throw `thrown` may raise `kind`. An unknown class counts as a subclass
of `kind`, unless it is one of the platform. -/
def admits (h : Hierarchy) (thrown kind : String) : Bool :=
  thrown == kind || failureAncestors.contains thrown ||
    match h.isSubtype kind thrown with
    | some related => related
    | none => !thrown.startsWith "java/"

end Hierarchy

namespace Insn

/-- Boxing or unboxing of a primitive value. -/
def isConversion (member : MemberRef) : Bool :=
  match Primitive.ofWrapper? member.owner with
  | some p => member.name == "valueOf" || member.name == p.unboxMethod
  | none => false

/-- The instruction may raise `kind`. -/
def mayThrow (h : Hierarchy) (kind : String) (insn : Insn) : Bool :=
  match insn with
  | op code => code == Opcode.athrow
  | invokeDynamic _ _ _ => true
  | invoke _ _ member _ =>
    if insn.isReflectiveInvoke || insn.isMethodLookup then true
    else if isConversion member then false
    else
      match h.declaredExceptions? member.owner member.name member.descriptor with
      | some declared => declared.any fun thrown => h.admits thrown kind
      | none => true
  | _ => false

end Insn

/-- The regions of one handler that catch one class. -/
abbrev HandlerGroup := NodeId × String

namespace Body

def inGroup (g : HandlerGroup) (r : Region) : Bool := r.handler == g.1 && r.catchType == some g.2

/-- The handler also catches something else over one of the ranges of the group. -/
def isJoint (body : Body) (g : HandlerGroup) : Bool :=
  let others := body.regions.filter fun r => r.handler == g.1 && r.catchType != some g.2
  others.any fun r => body.regions.any fun s => inGroup g s && s.start == r.start && s.stop == r.stop

/-- No instruction that a region covers may raise the class. -/
def isQuiet (body : Body) (h : Hierarchy) (positions : Positions) (kind : String) (r : Region) : Bool :=
  match positions.find? r.start, positions.find? r.stop with
  | some start, some stop =>
    (List.range' start (stop - start)).all fun p => !(body.insns.insnAt p).mayThrow h kind
  | _, _ => false

/-- The regions of the group can go. -/
def isPrunable (body : Body) (h : Hierarchy) (positions : Positions) (g : HandlerGroup) : Bool :=
  !body.isJoint g && (body.regions.filter (inGroup g)).all (body.isQuiet h positions g.2)

/-- The group of a region that catches a reflective failure. -/
def group? (r : Region) : Option HandlerGroup :=
  match r.catchType with
  | some kind => if reflectiveFailures.contains kind then some (r.handler, kind) else none
  | none => none

/-- The first group that can go, and the groups that were rejected. -/
def nextPrunable (body : Body) (h : Hierarchy) (positions : Positions) (rejected : List HandlerGroup) :
    List HandlerGroup → Option HandlerGroup × List HandlerGroup
  | [] => (none, rejected)
  | g :: rest =>
    if rejected.contains g then body.nextPrunable h positions rejected rest
    else if body.isPrunable h positions g then (some g, rejected)
    else body.nextPrunable h positions (g :: rejected) rest

/-- Removes groups for at most `rounds` rounds, each of which removes a region. Rejected groups get
another chance once code was removed. -/
def pruneHandlersFrom (h : Hierarchy) :
    Nat → List HandlerGroup → Body → Nat → Except Fault (Body × Nat)
  | 0, _, body, removed => return (body, removed)
  | rounds + 1, rejected, body, removed =>
    match body.nextPrunable h body.insns.positions rejected (body.regions.filterMap group?) with
    | (none, _) => return (body, removed)
    | (some g, rejected) => do
      let kept := body.regions.filter fun r => !inGroup g r
      let removed := removed + (body.regions.length - kept.length)
      let (body, dead) ← { body with regions := kept }.pruneUnreachable
      pruneHandlersFrom h rounds (if 0 < dead then [] else rejected) body removed

/-- The body without handlers of failures that cannot arise, and the number of regions removed. -/
def pruneHandlers (body : Body) (h : Hierarchy) : Except Fault (Body × Nat) :=
  pruneHandlersFrom h (body.regions.length + 1) [] body 0

end Body

end DirectCall
