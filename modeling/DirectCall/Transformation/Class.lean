import DirectCall.CallSite.ForName
import DirectCall.CallSite.Handlers
import DirectCall.CallSite.Invoke
import DirectCall.Code.Decode
import DirectCall.Code.Encode
import DirectCall.Transformation.Outcome
import DirectCall.Verification.StackMap

/-!
# Transforming a class

Every method with code is decoded, the calls in it are replaced, and a method in which one was is
encoded again. Nothing else in the class changes, but that constants are added to its pool.
-/

namespace DirectCall

/-- What the work on a class has to know: which classes there are, and which the class may name. -/
structure ClassContext where
  hierarchy : Hierarchy
  canReference : String → Bool

/-- The reflective method that a pass replaces calls of. -/
def Pass.callee : Pass → String × String
  | getMethod => ("java/lang/reflect/Method", "invoke")
  | forName => ("java/lang/Class", "forName")

namespace Body

/-- Replaces the calls that the passes look for; look-ups of classes come first. -/
def replaceCalls (ctx : MethodContext) (passes : List Pass) (body : Body) :
    Except Fault (Body × List SiteOutcome) := do
  let (body, classSites) :=
    if passes.contains .forName then body.replaceForNames ctx else (body, [])
  let (body, methodSites) ←
    if passes.contains .getMethod then body.replaceInvokes ctx else .ok (body, [])
  return (body, classSites ++ methodSites)

/-- Drops what cannot be reached once calls were replaced. -/
def prune (h : Hierarchy) (body : Body) : Except Fault Body := do
  let (body, _) ← body.pruneHandlers h
  let (body, _) ← body.pruneUnreachable
  return body

end Body

namespace ClassFile

/-- Version of the first class files that have stack maps. -/
def stackMapVersion : UInt16 := 50

/-- The code attribute of a body. -/
def codeAttribute (major : UInt16) (map : StackMap) (body : Body) : ConstantPool.Edit Attribute := do
  let encoded ← body.encode
  let table ← if stackMapVersion ≤ major then map.attribute? body encoded.offsets else pure none
  let code ← encoded.toAttribute map.maxStack map.maxLocals table.toList
  let bytes ← code.toBytes
  return ⟨← ConstantPool.utf8Index "Code", bytes⟩

/-- The code attribute of a body, with its limits computed anew, and the pool that it refers to. -/
def encodeMethod (c : ClassFile) (h : Hierarchy) (m : MethodSig) (body : Body) :
    Except StageFault (Attribute × ConstantPool) := do
  let context := Context.encodingMethod m.name m.descriptor
  let map ← inStage .analyze (during context (StackMap.compute h m body))
  let (result, pool) := c.pool.edit (codeAttribute c.majorVersion map body)
  return (← inStage .encode (during context result), pool)

/-- A method that has been worked on, and the pool that it refers to. -/
structure Reworked where
  pool : ConstantPool
  method : Member
  sites : List CallSite

/-- Replaces the calls in the code of a method. -/
def transformCode (c : ClassFile) (ctx : ClassContext) (passes : List Pass) (owner : String)
    (member : Member) : Except StageFault Reworked := do
  let name ← inStage .parse (c.memberName member)
  let descriptor ← inStage .parse (c.memberDescriptor member)
  match ← inStage .decode (c.code? member) with
  | none => return ⟨c.pool, member, []⟩
  | some code =>
    let m : MethodSig := ⟨owner, name, descriptor, member.access⟩
    let body ← inStage .decode (during (.decodingMethod name descriptor) (Body.decode c.pool code))
    let (body, outcomes) ← inStage .analyze <| during (.analyzingMethod name descriptor) <|
      body.replaceCalls ⟨m, c.majorVersion, ctx.hierarchy, ctx.canReference⟩ passes
    let sites := outcomes.map (CallSite.mk owner name descriptor)
    if outcomes.any (·.isTransformed) then
      let body ← inStage .prune (body.prune ctx.hierarchy)
      let (encoded, pool) ← c.encodeMethod ctx.hierarchy m body
      let place := member.attributes.findIdx (c.isAttribute "Code")
      return ⟨pool, { member with attributes := member.attributes.set place encoded }, sites⟩
    else return ⟨c.pool, member, sites⟩

/-- Replaces the calls in a method; one without code stays as it is. -/
def transformMethod (c : ClassFile) (ctx : ClassContext) (passes : List Pass) (owner : String)
    (member : Member) : Except StageFault Reworked :=
  match c.attribute? member.attributes "Code" with
  | none => .ok ⟨c.pool, member, []⟩
  | some _ => c.transformCode ctx passes owner member

/-- Replaces the calls in methods one after the other; what one adds to the pool the next one sees. -/
def transformMethods (c : ClassFile) (ctx : ClassContext) (passes : List Pass) (owner : String) :
    List Member → Except StageFault (ConstantPool × List Member × List CallSite)
  | [] => .ok (c.pool, [], [])
  | member :: rest => do
    let done ← c.transformMethod ctx passes owner member
    let (pool, members, sites) ←
      transformMethods { c with pool := done.pool } ctx passes owner rest
    return (pool, done.method :: members, done.sites ++ sites)

/-- The enabled passes that may find something, by the methods that the class refers to. -/
def passes (c : ClassFile) (settings : Settings) : List Pass :=
  Pass.all.filter fun p => settings.isEnabled p && c.pool.references p.callee.1 p.callee.2

/-- Replaces the calls in a class. There are new bytes only if a call was replaced. -/
def transform (c : ClassFile) (ctx : ClassContext) (settings : Settings) :
    Except StageFault (Option (List UInt8) × List CallSite) := do
  let name ← inStage .parse c.name
  let passes := c.passes settings
  if passes.isEmpty then return (none, [])
  let (pool, methods, sites) ← c.transformMethods ctx passes name c.methods
  if sites.any (·.outcome.isTransformed) then
    let c := { c with pool := pool, methods := methods }
    return (some (← inStage .encode (during (.writingClass name) c.toBytes)), sites)
  else return (none, sites)

end ClassFile

end DirectCall
