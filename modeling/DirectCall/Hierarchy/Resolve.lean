import DirectCall.ConstantValue
import DirectCall.Hierarchy

/-!
# Method resolution

`Hierarchy.resolve` finds the method that a look-up among public methods returns, `resolveDeclared`
the one among the methods that a class declares itself. The answer is `none` if it is open which
methods match, or if no method is the most specific one.
-/

namespace DirectCall

/-- The method that a look-up returns. -/
structure ResolvedMethod where
  owner : String
  name : String
  descriptor : String
  access : UInt16
  ownerIsInterface : Bool
  deriving DecidableEq, Repr

namespace ResolvedMethod

def isStatic (m : ResolvedMethod) : Bool := Access.isStatic m.access

def isPublic (m : ResolvedMethod) : Bool := Access.isPublic m.access

def member (m : ResolvedMethod) : MemberRef := ⟨m.owner, m.name, m.descriptor⟩

end ResolvedMethod

/-- A matching method with the type that declares it. -/
structure Candidate where
  owner : ClassHeader
  method : MethodHeader
  deriving DecidableEq, Repr

namespace Candidate

/-- Parameter part and return type of the descriptor. -/
def signature (c : Candidate) : List Char × List Char :=
  let text := c.method.descriptor.toList
  match ClassName.beforeLast? ')' text, ClassName.afterLast? ')' text with
  | some params, some ret => (params, ret)
  | _, _ => (text, [])

def params (c : Candidate) : List Char := c.signature.1

def ret (c : Candidate) : String := String.ofList c.signature.2

def resolved (c : Candidate) : ResolvedMethod :=
  ⟨c.owner.name, c.method.name, c.method.descriptor, c.method.access, c.owner.isInterface⟩

end Candidate

/-- Deepest chain of supertypes that a look-up follows. -/
def lookupDepth : Nat := 256

namespace Hierarchy

/-- Each requested type is the declared one or a supertype of it. -/
def paramsMatch (h : Hierarchy) : (declared requested : List String) → Option Bool
  | d :: ds, r :: rs => do
    if ← h.isAssignable r d then h.paramsMatch ds rs else return false
  | _, _ => some true

/-- The method has the name and the number of parameters, and takes the requested types. Methods
with special names are never found. -/
def isMatch (h : Hierarchy) (name : String) (params : List String) (m : MethodHeader) :
    Option Bool :=
  if m.name ≠ name || name.startsWith "<" then some false
  else
    match MethodDescriptor.parse m.descriptor with
    | .error _ => some false
    | .ok parsed =>
      if parsed.params.length ≠ params.length then some false
      else h.paramsMatch parsed.params params

/-- The matching methods among some of a type. -/
def matching (h : Hierarchy) (name : String) (params : List String) (owner : ClassHeader) :
    List MethodHeader → Option (List Candidate)
  | [] => some []
  | m :: rest => do
    let found ← h.isMatch name params m
    let others ← h.matching name params owner rest
    return if found then ⟨owner, m⟩ :: others else others

/-- Adds a candidate unless an existing one of the same signature overrides it, and drops those that
it overrides. Methods of classes override methods of interfaces, methods of subtypes those of their
supertypes. -/
def addCandidate (h : Hierarchy) (candidate : Candidate) :
    List Candidate → Option (List Candidate)
  | [] => some [candidate]
  | current :: rest =>
    if current.signature ≠ candidate.signature then
      (h.addCandidate candidate rest).map (current :: ·)
    else
      match current.owner.isInterface, candidate.owner.isInterface with
      | false, true => some (current :: rest)
      | true, false => h.addCandidate candidate rest
      | _, _ => do
        if ← h.isSubtype candidate.owner.name current.owner.name then return current :: rest
        if ← h.isSubtype current.owner.name candidate.owner.name then h.addCandidate candidate rest
        else (h.addCandidate candidate rest).map (current :: ·)

def addCandidates (h : Hierarchy) (existing : List Candidate) : List Candidate → Option (List Candidate)
  | [] => some existing
  | candidate :: rest => do
    h.addCandidates (← h.addCandidate candidate existing) rest

/-- The public methods of a type that match. If it declares none, those of its superclass and, the
static ones left out, those of its interfaces. -/
def publicCandidates (h : Hierarchy) (name : String) (params : List String) :
    Nat → Bool → String → Option (List Candidate)
  | 0, _, _ => none
  | depth + 1, includeStatic, className => do
    let header ← h.class? className
    let visible := header.methods.filter fun m => m.isPublic && (includeStatic || !m.isStatic)
    let found ← h.matching name params header visible
    if found ≠ [] then return found
    let inherited ←
      match header.superclass? with
      | some above => h.publicCandidates name params depth includeStatic above
      | none => some []
    header.interfaces.foldlM
      (fun existing interface => do
        h.addCandidates existing (← h.publicCandidates name params depth false interface))
      inherited

/-- The candidate whose return type is assignable to the best one met so far takes its place. -/
def bestOf (h : Hierarchy) (best : Candidate) : List Candidate → Option Candidate
  | [] => some best
  | c :: rest => do
    if c.ret ≠ best.ret then
      if ← h.isAssignable best.ret c.ret then h.bestOf c rest else h.bestOf best rest
    else h.bestOf best rest

/-- The return type is assignable to that of every candidate. -/
def returnsBelow (h : Hierarchy) (ret : String) : List Candidate → Option Bool
  | [] => some true
  | c :: rest => do
    if ← h.isAssignable c.ret ret then h.returnsBelow ret rest else return false

/-- The candidate with the most specific return type, if all take the same parameters. -/
def mostSpecific (h : Hierarchy) : List Candidate → Option ResolvedMethod
  | [] => none
  | first :: rest => do
    if rest.any (·.params ≠ first.params) then none
    else
      let best ← h.bestOf first rest
      if ← h.returnsBelow best.ret (first :: rest) then return best.resolved else none

/-- The public method that a look-up through the supertypes returns. -/
def resolve (h : Hierarchy) (className name : String) (params : List String) :
    Option ResolvedMethod := do
  h.mostSpecific (← h.publicCandidates name params (lookupDepth + 1) true className)

/-- The method that a look-up among the declared methods returns, whatever its access. -/
def resolveDeclared (h : Hierarchy) (className name : String) (params : List String) :
    Option ResolvedMethod := do
  let header ← h.class? className
  h.mostSpecific (← h.matching name params header header.methods)

/-- The method was looked up among declared methods and is not public. -/
def isDeclaredOnly (h : Hierarchy) (m : MethodLookup) : Bool :=
  m.declaredOnly &&
    match h.resolveDeclared m.className m.methodName m.params with
    | some resolved => !resolved.isPublic
    | none => false

end Hierarchy

end DirectCall
