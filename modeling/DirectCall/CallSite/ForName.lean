import DirectCall.CallSite.Outcome
import DirectCall.Insn.Reflection
import Std.Data.HashSet

/-!
# Class look-ups to class constants

`forName` on a literal that is pushed right ahead of it becomes a class constant. The class is still
initialised, through the look-up object of the caller.
-/

namespace DirectCall

namespace ClassName

def lookupObject : String := "java/lang/invoke/MethodHandles$Lookup"

/-- Adjacent equal separators somewhere. -/
def hasEmptyPart : List Char → Bool
  | '.' :: '.' :: _ => true
  | _ :: rest => hasEmptyPart rest
  | [] => false

/-- The internal name of a class by its source name; arrays and malformed names have none. -/
def internal? (name : String) : Option String :=
  let chars := name.toList
  if chars = [] ∨ chars.head? = some '[' ∨ chars.contains '/' ∨ chars.head? = some '.'
      ∨ chars.getLast? = some '.' ∨ hasEmptyPart chars then none
  else some (String.ofList (chars.map fun c => if c = '.' then '/' else c))

end ClassName

/-- A call whose literal names a class. -/
structure ForNameSite where
  position : Nat
  literal : NodeId
  name : String
  className : String
  deriving Repr

namespace Body

/-- Nodes that jumps lead to or regions name. -/
def referencedNodes (body : Body) : Std.HashSet NodeId :=
  Std.HashSet.ofList (body.insns.insns.toList.flatMap (·.targets)
    ++ body.regions.flatMap fun r => [r.start, r.stop, r.handler])

/-- The last node among the first `count` positions that is neither a line nor an unused label. -/
def lastSolid? (list : InsnList) (referenced : Std.HashSet NodeId) : Nat → Option NodeId
  | 0 => none
  | count + 1 =>
    let id := list.idAt count
    match list.get id with
    | .line _ => lastSolid? list referenced count
    | .label => if referenced.contains id then some id else lastSolid? list referenced count
    | _ => some id

/-- The call at a position, if its argument is a literal with the name of a class. -/
def forNameSite? (body : Body) (referenced : Std.HashSet NodeId) (position : Nat) :
    Option ForNameSite := do
  if !(body.insns.insnAt position).isForName then none
  else
    let literal ← lastSolid? body.insns referenced position
    match body.insns.get literal with
    | .ldc _ (.string name) => return ⟨position, literal, name, ← ClassName.internal? name⟩
    | _ => none

/-- Why a call is left alone. -/
def forNameRefusal (ctx : MethodContext) (s : ForNameSite) : Option Refusal :=
  if ctx.majorVersion < 49 then some .classConstantVersion
  else if !ctx.canReference s.className then some .outsideModuleScope
  else none

/-- Loads the class and initialises it. -/
def initializedClass (className : String) : List Insn :=
  [.call Opcode.invokestatic
      ⟨"java/lang/invoke/MethodHandles", "lookup", "()L" ++ ClassName.lookupObject ++ ";"⟩ false,
    .load (.classRef className),
    .call Opcode.invokevirtual
      ⟨ClassName.lookupObject, "ensureInitialized", "(Ljava/lang/Class;)Ljava/lang/Class;"⟩ false]

/-- Records that a call and its literal are replaced. -/
def recordForName (call : Nat → NodeId) (state : InsnList × EditPlan) (s : ForNameSite) :
    InsnList × EditPlan :=
  let (list, plan) := state
  let (list, ids) := list.createAll (initializedClass s.className)
  (list, ((plan.insertBefore (call s.position) ids).remove s.literal).remove (call s.position))

/-- Replaces the calls of `forName` that can be replaced; one outcome for each call with a literal
name, in order. -/
def replaceForNames (ctx : MethodContext) (body : Body) : Body × List SiteOutcome :=
  let referenced := body.referencedNodes
  let sites := (List.range body.insns.size).filterMap (body.forNameSite? referenced)
  let outcomes := sites.map fun s =>
    SiteOutcome.mk .forName (body.lineAt s.position) s.name (forNameRefusal ctx s)
  let accepted := sites.filter fun s => (forNameRefusal ctx s).isNone
  if accepted.isEmpty then (body, outcomes)
  else
    let (list, plan) := accepted.foldl (recordForName body.insns.idAt) (body.insns, EditPlan.empty)
    ({ body with insns := list.commit plan }, outcomes)

end Body

end DirectCall
