import DirectCall.ClassFile.Format
import DirectCall.Code.Decode
import DirectCall.Code.Layout

/-!
# Writing code

`Body.encode` lays a body out and writes it. What fresh instructions name is added to the pool;
indices that are there already are used as they are.
-/

namespace DirectCall

open Bytes

/-- Code with the offset of every position, and the tables that go with it. -/
structure EncodedCode where
  code : List UInt8
  offsets : Array Nat
  handlers : List HandlerRange
  /-- Offsets with their line. -/
  lines : List (UInt16 × UInt16)
  /-- Local variable entries with their start and length. -/
  locals : List (LocalEntry × UInt16 × UInt16)

namespace Insn

/-- A load or store of one of the first four locals, with the variable inside the opcode. -/
def shortLocal? (code : UInt8) (v : UInt16) : Option UInt8 :=
  if 4 ≤ v then none
  else if Opcode.between Opcode.iload Opcode.aload code then
    some (Opcode.iload0 + (code - Opcode.iload) * 4 + v.toUInt8)
  else if Opcode.between Opcode.istore Opcode.astore code then
    some (Opcode.istore0 + (code - Opcode.istore) * 4 + v.toUInt8)
  else none

def writeLocal (code : UInt8) (v : UInt16) : List UInt8 :=
  match shortLocal? code v with
  | some short => [short]
  | none => if v ≤ 255 then [code, v.toUInt8] else Opcode.wide :: code :: ofUInt16 v

def writeIncrement (v : UInt16) (delta : Int16) : List UInt8 :=
  if v ≤ 255 ∧ fitsByte delta then [Opcode.iinc, v.toUInt8, delta.toInt8.toUInt8]
  else Opcode.wide :: Opcode.iinc :: ofUInt16 v ++ ofInt16 delta

def writeLoad (constant : Constant) (index : UInt16) : List UInt8 :=
  if constant.isWide then Opcode.ldc2W :: ofUInt16 index
  else if 255 < index then Opcode.ldcW :: ofUInt16 index
  else [Opcode.ldc, index.toUInt8]

/-- A call through an interface tells how many slots its arguments take. -/
def writeCall (code : UInt8) (member : MemberRef) (index : UInt16) : Except Fault (List UInt8) :=
  if code = Opcode.invokeinterface then
    match MethodDescriptor.parse member.descriptor with
    | .error cause => .error (.descriptor member.descriptor cause)
    | .ok parsed =>
      if parsed.paramSlots + 1 ≤ 255 then
        .ok (code :: ofUInt16 index ++ [(parsed.paramSlots + 1).toUInt8, 0])
      else .error .tooManyArguments
  else .ok (code :: ofUInt16 index)

/-- A displacement of four bytes. -/
def longDisplacement (distance : Int) : List UInt8 := ofInt32 (Int32.ofInt distance)

def writeJump (code : UInt8) (isLong : Bool) (distance : Int) : List UInt8 :=
  if isLong then
    (if code = Opcode.jsr then Opcode.jsrW else Opcode.gotoW) :: longDisplacement distance
  else code :: ofInt16 (Int16.ofInt distance)

/-- The bytes of an instruction at an offset, given the distances to its targets. -/
def write (insn : Insn) (offset : Nat) (index : UInt16) (isLong : Bool)
    (distance : NodeId → Except Fault Int) : Except Fault (List UInt8) :=
  let target (id : NodeId) : Except Fault (List UInt8) := longDisplacement <$> distance id
  match insn with
  | label => .ok []
  | line _ => .ok []
  | op code => .ok [code]
  | push code value =>
    if code = Opcode.bipush then .ok [code, value.toInt8.toUInt8]
    else .ok (code :: ofInt16 value.toInt16)
  | newArray code => .ok [Opcode.newarray, code]
  | var code v => .ok (writeLocal code v)
  | iinc v delta => .ok (writeIncrement v delta)
  | ldc _ constant => .ok (writeLoad constant index)
  | field code _ _ => .ok (code :: ofUInt16 index)
  | type code _ _ => .ok (code :: ofUInt16 index)
  | invoke code _ member _ => writeCall code member index
  | invokeDynamic _ _ _ => .ok (Opcode.invokedynamic :: ofUInt16 index ++ [0, 0])
  | multiNewArray _ _ dims => .ok (Opcode.multianewarray :: ofUInt16 index ++ [dims])
  | jump code id => do return writeJump code isLong (← distance id)
  | tableSwitch low default targets => do
    let default ← target default
    let high := low + Int32.ofNat targets.length - 1
    return Opcode.tableswitch :: List.replicate (Code.padding offset) 0 ++ default ++ ofInt32 low
      ++ ofInt32 high ++ (← concat (targets.map target))
  | lookupSwitch default keys targets => do
    let default ← target default
    let pairs ← concat ((keys.zip targets).map fun (key, id) => (ofInt32 key ++ ·) <$> target id)
    return Opcode.lookupswitch :: List.replicate (Code.padding offset) 0 ++ default
      ++ ofUInt32 keys.length.toUInt32 ++ pairs

end Insn

namespace Layout

/-- The bytes of a position. -/
def writeAt (l : Layout) (long : LongJumps) (offsets : Array Nat) (position : Nat) :
    Except Fault (List UInt8) :=
  let offset := offsets.getD position 0
  (l.list.insnAt position).write offset (l.indices.getD position 0) (long.getD position false)
    (l.displacement offsets offset)

/-- The handler of a region; a region that covers no bytes has none. -/
def handler? (l : Layout) (offsets : Array Nat) (r : Region) :
    ConstantPool.Edit (Option HandlerRange) := do
  let start ← l.offsetOf offsets r.start
  let stop ← l.offsetOf offsets r.stop
  if stop ≤ start then return none
  else
    let catchType ←
      match r.catchType with
      | some name => ConstantPool.classIndex name
      | none => pure 0
    let handler ← l.offsetOf offsets r.handler
    return some ⟨start.toUInt16, stop.toUInt16, handler.toUInt16, catchType⟩

/-- The line at a position, unless no code follows it. -/
def line? (l : Layout) (offsets : Array Nat) (position : Nat) : Option (UInt16 × UInt16) :=
  match l.list.insnAt position with
  | .line number =>
    let offset := offsets.getD position 0
    if offset < offsets.getD l.size 0 then some (offset.toUInt16, number) else none
  | _ => none

/-- Start and length of a local variable entry, unless it ends ahead of its start. -/
def localRange? (l : Layout) (offsets : Array Nat) (v : LocalEntry) :
    Except Fault (Option (LocalEntry × UInt16 × UInt16)) := do
  let start ← l.offsetOf offsets v.start
  let stop ← l.offsetOf offsets v.stop
  return if start ≤ stop then some (v, start.toUInt16, (stop - start).toUInt16) else none

end Layout

namespace Body

def encode (body : Body) : ConstantPool.Edit EncodedCode := do
  let layout ← Layout.ofList body.insns
  let (long, offsets) ← layout.settle
  let code ← concat ((List.range layout.size).map (layout.writeAt long offsets))
  let handlers ← body.regions.mapM (layout.handler? offsets)
  let locals ← ExceptT.mk (pure (body.locals.mapM (layout.localRange? offsets)))
  return { code := code
           offsets := offsets
           handlers := handlers.filterMap id
           lines := (List.range layout.size).filterMap (layout.line? offsets)
           locals := locals.filterMap id }

end Body

namespace EncodedCode

/-- The attribute of a table, unless the table is empty. -/
def tableAttribute (name : String) (entries : List α) (write : α → List UInt8) :
    ConstantPool.Edit (List Attribute) := do
  if entries.isEmpty then return []
  else
    let info ← Bytes.table entries fun e => .ok (write e)
    return [⟨← ConstantPool.utf8Index name, info⟩]

def writeLine (entry : UInt16 × UInt16) : List UInt8 := ofUInt16 entry.1 ++ ofUInt16 entry.2

def writeLocalEntry (entry : LocalEntry × UInt16 × UInt16) : List UInt8 :=
  let (v, start, length) := entry
  ofUInt16 start ++ ofUInt16 length ++ ofUInt16 v.nameIndex ++ ofUInt16 v.descriptorIndex
    ++ ofUInt16 v.index

/-- The code attribute, with `extra` attributes after the tables. -/
def toAttribute (c : EncodedCode) (maxStack maxLocals : UInt16) (extra : List Attribute) :
    ConstantPool.Edit CodeAttribute := do
  let lines ← tableAttribute Code.lineTable c.lines writeLine
  let types := c.locals.filter (·.1.isTypeEntry)
  let others := c.locals.filter (!·.1.isTypeEntry)
  let locals ← tableAttribute Code.localTable others writeLocalEntry
  let localTypes ← tableAttribute Code.localTypeTable types writeLocalEntry
  return ⟨maxStack, maxLocals, c.code, c.handlers, lines ++ locals ++ localTypes ++ extra⟩

end EncodedCode

end DirectCall
