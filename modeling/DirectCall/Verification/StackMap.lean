import DirectCall.Bytes.Writer
import DirectCall.ClassFile
import DirectCall.Graph.Reach
import DirectCall.Verification.Type

/-!
# Stack maps

The operand limits of a method, and the frames that a verifier wants at every target of a jump and
at every handler. Frames are written in full.
-/

namespace DirectCall

structure StackMap where
  maxStack : UInt16
  maxLocals : UInt16
  /-- Frames by increasing position. -/
  frames : List (Nat × Frame VerificationType)
  deriving Repr

namespace StackMap

/-! ## Computation -/

/-- The first local after those that an instruction uses. -/
def localsEnd : Insn → Nat
  | .var code var =>
    let isWide := code = Opcode.lload ∨ code = Opcode.dload ∨ code = Opcode.lstore ∨ code = Opcode.dstore
    var.toNat + (if isWide then 2 else 1)
  | .iinc var _ => var.toNat + 1
  | _ => 0

/-- Locals that the signature, the instructions and the declared limit ask for. -/
def requiredLocals (m : MethodSig) (body : Body) : Except Fault UInt16 :=
  match MethodDescriptor.parse m.descriptor with
  | .error cause => .error (.descriptor m.descriptor cause)
  | .ok parsed =>
    let used := body.insns.insns.foldl (fun n insn => max n (localsEnd insn)) (Frame.entrySlots m parsed)
    let needed := max used body.maxLocals.toNat
    if needed ≤ 65535 then .ok needed.toUInt16 else .error .tooManyLocals

/-- Targets of jumps in order, then handlers. -/
def frameTargets (body : Body) : List NodeId :=
  body.insns.insns.toList.flatMap (·.targets) ++ body.regions.map (·.handler)

/-- The first real instruction among the `count` positions from `position` on. -/
def nextReal? (list : InsnList) : Nat → Nat → Option Nat
  | 0, _ => none
  | count + 1, position =>
    if (list.insnAt position).isReal then some position else nextReal? list count (position + 1)

/-- The position that has to have a frame because of a target, if anything follows the target. -/
def framePosition (list : InsnList) (positions : Positions) (all : Frame.Frames VerificationType)
    (target : NodeId) : Except Fault (Option Nat) :=
  match positions.find? target with
  | none => .error (.unplacedTarget target)
  | some start =>
    match nextReal? list (list.size - start) start with
    | none => .ok none
    | some position =>
      if (all.getD position none).isSome then .ok (some position)
      else .error (.unreachableTarget position)

/-- The frames at some positions. -/
def framesAt (all : Frame.Frames VerificationType) (positions : List Nat) :
    List (Nat × Frame VerificationType) :=
  (Graph.members (Graph.mark all.size positions)).filterMap fun position =>
    (all.getD position none).map (position, ·)

/-- Greatest size of a stack in slots. -/
def depth (d : Domain VerificationType) (all : Frame.Frames VerificationType) : Nat :=
  all.foldl (fun deepest f => max deepest ((f.map (·.stackSlots d)).getD 0)) 0

def compute (h : Hierarchy) (m : MethodSig) (body : Body) : Except Fault StackMap := do
  let maxLocals ← requiredLocals m body
  let d := VerificationType.domain h m
  let all ← Frame.analyze d m { body with maxLocals := maxLocals }
  let needed ← (frameTargets body).mapM (framePosition body.insns body.insns.positions all)
  if depth d all ≤ 65535 then
    return ⟨(depth d all).toUInt16, maxLocals, framesAt all (needed.filterMap id)⟩
  else throw .stackTooDeep

/-! ## As bytes -/

open ConstantPool (Edit)

/-- The type of one slot; an object not yet initialised is named by the offset of its making. -/
def writeType (positions : Positions) (offsets : Array Nat) : VerificationType → Edit (List UInt8)
  | .top => return [0]
  | .int => return [1]
  | .float => return [2]
  | .double => return [3]
  | .long => return [4]
  | .null => return [5]
  | .uninitThis => return [6]
  | .object className => do return 7 :: Bytes.ofUInt16 (← ConstantPool.classIndex className)
  | .uninit site _ =>
    match positions.find? site with
    | some position => return 8 :: Bytes.ofUInt16 (offsets.getD position 0).toUInt16
    | none => throw (.unplacedAllocation site)

/-- Locals without the second halves of wide values. -/
def withoutSecondHalves : List VerificationType → List VerificationType
  | [] => []
  | [v] => [v]
  | v :: w :: rest =>
    if v.size = 2 then v :: withoutSecondHalves rest else v :: withoutSecondHalves (w :: rest)

/-- Locals as a frame lists them: unusable ones at the end are left out. -/
def listedLocals (locals : List VerificationType) : List VerificationType :=
  ((withoutSecondHalves locals).reverse.dropWhile (· = .top)).reverse

/-- A table of types. -/
def writeTypes (positions : Positions) (offsets : Array Nat) (types : List VerificationType) :
    Edit (List UInt8) := do
  let length ← Bytes.tableLength types.length
  return length ++ (← types.mapM (writeType positions offsets)).flatten

/-- Frames written so far, and the offset of the last one. -/
structure Written where
  last : Option Nat
  chunks : List (List UInt8)

/-- Writes a frame with its distance from the one before. -/
def writeFrame (positions : Positions) (offsets : Array Nat) (written : Written)
    (entry : Nat × Frame VerificationType) : Edit Written := do
  let (position, frame) := entry
  let offset := offsets.getD position 0
  let distance :=
    match written.last with
    | none => offset
    | some last => offset - last - 1
  let locals ← writeTypes positions offsets (listedLocals frame.locals.toList)
  let stack ← writeTypes positions offsets frame.stack.reverse
  return ⟨some offset, (255 :: Bytes.ofUInt16 distance.toUInt16 ++ locals ++ stack) :: written.chunks⟩

/-- The attribute that holds the frames, if there are any. -/
def attribute? (map : StackMap) (body : Body) (offsets : Array Nat) : Edit (Option Attribute) := do
  if map.frames.isEmpty then return none
  else
    let length ← Bytes.tableLength map.frames.length
    let written ← map.frames.foldlM (writeFrame body.insns.positions offsets) ⟨none, []⟩
    return some ⟨← ConstantPool.utf8Index "StackMapTable", length ++ written.chunks.reverse.flatten⟩

end StackMap

end DirectCall
