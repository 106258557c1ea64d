import DirectCall.CallSite.Plan

/-!
# Code around a direct call

The instructions that take the place of a planned call: the receiver is cast, the arguments are
taken out of their array and unboxed, and the result is boxed, so that what the old call left on the
stack is there again.
-/

namespace DirectCall

namespace Insn

/-- Gives an array element the type of a parameter. -/
def unbox (param : String) : List Insn :=
  match Primitive.ofDescriptor? param with
  | some p =>
    [ofClass Opcode.checkcast p.wrapper,
      call Opcode.invokevirtual ⟨p.wrapper, p.unboxMethod, "()" ++ p.descriptor⟩ false]
  | none =>
    match Descriptor.className? param with
    | some className => if className = objectClass then [] else [ofClass Opcode.checkcast className]
    | none => []

/-- Turns the result of a call into the object that the reflective call gives. -/
def box (ret : String) : List Insn :=
  if ret = "V" then [op Opcode.aconstNull]
  else
    match Primitive.ofDescriptor? ret with
    | some p =>
      [call Opcode.invokestatic
        ⟨p.wrapper, "valueOf", "(" ++ p.descriptor ++ ")" ++ Descriptor.ofClassName p.wrapper⟩ false]
    | none => []

/-- Pushes element `index` of the array in a local. -/
def element (var : UInt16) (index : Nat) (param : String) : List Insn :=
  [.var Opcode.aload var, pushInt (Int32.ofNat index), op Opcode.aaload] ++ unbox param

/-- Pushes all arguments. -/
def elements (var : UInt16) (params : List String) : List Insn :=
  (params.zip (List.range params.length)).flatMap fun (param, index) => element var index param

end Insn

namespace ResolvedMethod

/-- Opcode of a direct call. -/
def callOpcode (m : ResolvedMethod) : UInt8 :=
  if m.isStatic then Opcode.invokestatic
  else if m.ownerIsInterface then Opcode.invokeinterface
  else Opcode.invokevirtual

/-- Drops the receiver of a static method, or casts it to its class. -/
def receiverCode (m : ResolvedMethod) : List Insn :=
  if m.isStatic then [.op Opcode.pop]
  else if m.owner = objectClass then []
  else [.ofClass Opcode.checkcast m.owner]

end ResolvedMethod

/-- What a planned call changes in the body. -/
structure SiteEdit where
  site : NodeId
  remove : List NodeId
  /-- Nodes that move ahead of another one, with the instruction that follows them there. -/
  move : Option (NodeId × List NodeId × Insn)
  atSite : List Insn

namespace PlannedSite

/-- Receiver, arguments, call and result, where `var` holds the argument array. -/
def callCode (p : PlannedSite) (var : Option UInt16) : List Insn :=
  p.resolved.receiverCode
    ++ (match var with
        | some var => Insn.elements var p.parsed.params
        | none => [])
    ++ [.call p.resolved.callOpcode p.resolved.member p.resolved.ownerIsInterface]
    ++ Insn.box p.parsed.ret

/-- The call takes a fresh local for the array. -/
def needsLocal (p : PlannedSite) : Bool :=
  match p.arguments with
  | .stored => true
  | .moved _ _ => true
  | _ => false

/-- The edit for a planned call; `fresh` is a local that nothing else uses. -/
def edit (p : PlannedSite) (a : SiteAnalysis) (fresh : UInt16) : SiteEdit :=
  let site := a.idAt p.position
  let method := a.realIds p.methodCode
  let store : Insn := .var Opcode.astore fresh
  match p.arguments with
  | .none (some code) => ⟨site, method ++ a.realIds code, none, p.callCode none⟩
  | .none none => ⟨site, method, none, .op Opcode.pop :: p.callCode none⟩
  | .inLocal var load => ⟨site, method ++ a.realIds load, none, p.callCode (some var)⟩
  | .stored => ⟨site, method, none, store :: p.callCode (some fresh)⟩
  | .moved code receiver =>
    ⟨site, method, some (a.idAt receiver, code.positions.map a.idAt, store), p.callCode (some fresh)⟩

end PlannedSite

end DirectCall
