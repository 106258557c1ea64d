import DirectCall.Bytes.Writer
import DirectCall.Body
import DirectCall.ConstantPool

/-!
# Laying out code

Every instruction has a size that may depend on its offset, on its pool index and on the width of
its jump. `Layout.settle` widens the jumps that do not reach their target until all others do.
-/

namespace DirectCall

namespace Insn

/-- The delta of an increment fits one byte. -/
def fitsByte (delta : Int16) : Bool := -128 ≤ delta && delta ≤ 127

/-- Bytes that the instruction takes at an offset. -/
def codeSize (insn : Insn) (offset : Nat) (index : UInt16) (isLong : Bool) : Nat :=
  match insn with
  | label => 0
  | line _ => 0
  | op _ => 1
  | push code _ => if code = Opcode.bipush then 2 else 3
  | newArray _ => 2
  | var code v => if v < 4 ∧ code ≠ Opcode.ret then 1 else if v ≤ 255 then 2 else 4
  | iinc v delta => if v ≤ 255 ∧ fitsByte delta then 3 else 6
  | ldc _ constant => if constant.isWide ∨ 255 < index then 3 else 2
  | field _ _ _ => 3
  | type _ _ _ => 3
  | invoke code _ _ _ => if code = Opcode.invokeinterface then 5 else 3
  | invokeDynamic _ _ _ => 5
  | multiNewArray _ _ _ => 4
  | jump _ _ => if isLong then 5 else 3
  | tableSwitch _ _ targets => 1 + Code.padding offset + 12 + 4 * targets.length
  | lookupSwitch _ _ targets => 1 + Code.padding offset + 8 + 8 * targets.length

open ConstantPool in
/-- The index of what the instruction names in the pool, to which it is added if it has none. -/
def poolIndex : Insn → Edit UInt16
  | ldc index constant => if index ≠ 0 then return index else constantIndex constant
  | field _ index member => if index ≠ 0 then return index else fieldIndex member
  | invoke _ index member interface =>
    if index ≠ 0 then return index else methodIndex member interface
  | type _ index className => if index ≠ 0 then return index else classIndex className
  | multiNewArray index descriptor _ =>
    if index ≠ 0 then return index else classIndex descriptor
  | invokeDynamic index _ _ => if index ≠ 0 then return index else throw .freshInvokeDynamic
  | _ => return 0

end Insn

/-- The instructions of a body with their pool indices, and where the nodes stand. -/
structure Layout where
  list : InsnList
  positions : Positions
  indices : Array UInt16

namespace Layout

/-- Positions of jumps that take their long form. -/
abbrev LongJumps := Array Bool

def size (l : Layout) : Nat := l.list.size

/-- Offsets of the `count` positions from `position` on and of what follows, after the `done` ones. -/
def offsetsFrom (l : Layout) (long : LongJumps) :
    Nat → Nat → Nat → Array Nat → Array Nat
  | 0, _, offset, done => done.push offset
  | count + 1, position, offset, done =>
    let width := (l.list.insnAt position).codeSize offset (l.indices.getD position 0)
      (long.getD position false)
    offsetsFrom l long count (position + 1) (offset + width) (done.push offset)

/-- Offset of every position, and the length of the code. -/
def offsets (l : Layout) (long : LongJumps) : Array Nat :=
  offsetsFrom l long l.size 0 0 #[]

/-- The offset of a node. -/
def offsetOf (l : Layout) (offsets : Array Nat) (id : NodeId) : Except Fault Nat :=
  match l.positions.find? id with
  | some position => .ok (offsets.getD position 0)
  | none => .error .lostLabel

/-- Distance from an offset to a node. -/
def displacement (l : Layout) (offsets : Array Nat) (offset : Nat) (id : NodeId) :
    Except Fault Int := do
  return (← l.offsetOf offsets id : Int) - offset

/-- Distances that a short jump spans. -/
def isShort (distance : Int) : Bool := -32768 ≤ distance && distance ≤ 32767

/-- The jump at a position has to become long. Conditional jumps cannot. -/
def mustGrow (l : Layout) (long : LongJumps) (offsets : Array Nat) (position : Nat) :
    Except Fault Bool :=
  match l.list.insnAt position with
  | .jump code target =>
    if long.getD position false then .ok false
    else do
      let offset := offsets.getD position 0
      if isShort (← l.displacement offsets offset target) then return false
      else if code = Opcode.goto ∨ code = Opcode.jsr then return true
      else throw (.branchTooFar offset)
  | _ => .ok false

/-- Positions of the jumps that have to become long. -/
def growing (l : Layout) (long : LongJumps) (offsets : Array Nat) : Except Fault (List Nat) :=
  (List.range l.size).filterM (l.mustGrow long offsets)

/-- Widens jumps until all reach their targets, at least one a round. -/
def settleFrom (l : Layout) : Nat → LongJumps → Except Fault (LongJumps × Array Nat)
  | 0, long => .ok (long, l.offsets long)
  | rounds + 1, long => do
    let offsets := l.offsets long
    if offsets.getD l.size 0 > 65535 then throw .codeTooLong
    let grown ← l.growing long offsets
    if grown.isEmpty then return (long, offsets)
    else settleFrom l rounds (grown.foldl (fun long p => long.setIfInBounds p true) long)

/-- A goto or jsr. -/
def mayGrow : Insn → Bool
  | .jump code _ => code == Opcode.goto || code == Opcode.jsr
  | _ => false

/-- Number of jumps that may become long. -/
def growableCount (l : Layout) : Nat := (l.list.insns.filter mayGrow).size

/-- The jumps that take their long form, and the offsets of all positions. -/
def settle (l : Layout) : Except Fault (LongJumps × Array Nat) :=
  l.settleFrom (l.growableCount + 1) (Array.replicate l.size false)

/-- The instructions of a body, with what they name added to the pool. -/
def ofList (list : InsnList) : ConstantPool.Edit Layout := do
  let indices ← list.insns.mapM (·.poolIndex)
  return ⟨list, list.positions, indices⟩

end Layout

end DirectCall
