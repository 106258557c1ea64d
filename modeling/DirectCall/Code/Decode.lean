import DirectCall.ClassFile.Format
import DirectCall.Body
import DirectCall.Graph.Reach

/-!
# Reading code

`Body.decode` turns a code attribute into a body. Every offset that a jump, a handler, a line or a
local variable refers to becomes a label ahead of the instruction there, or at the end.
-/

namespace DirectCall

open Bytes Bytes.Reader

namespace Code

/-- An instruction at an offset; its targets are offsets still, in the order of its nodes. -/
structure Located where
  offset : Nat
  insn : Insn
  targets : List Nat
  deriving Repr

/-- The offset `delta` bytes on. -/
def relative (offset : Nat) (delta : Int) : Reader Nat :=
  let target := (offset : Int) + delta
  if target < 0 then throw .negativeTarget else return target.toNat

/-- A target with a displacement of four bytes. -/
def longTarget (offset : Nat) : Reader Nat := do relative offset (← i32).toInt

/-- A target with a displacement of two bytes. -/
def shortTarget (offset : Nat) : Reader Nat := do relative offset (← i16).toInt

/-- A pair of a key and its target. -/
def keyedTarget (offset : Nat) : Reader (Int32 × Nat) := do
  let key ← i32
  return (key, ← longTarget offset)

def tableSwitch (offset : Nat) : Reader Located := do
  let _ ← bytes (padding offset)
  let default ← longTarget offset
  let low ← i32
  let high ← i32
  if high < low then throw (.switchRange high low)
  let targets ← times (high.toInt - low.toInt + 1).toNat (longTarget offset)
  return ⟨offset, .tableSwitch low .dangling [], default :: targets⟩

def lookupSwitch (offset : Nat) : Reader Located := do
  let _ ← bytes (padding offset)
  let default ← longTarget offset
  let count ← i32
  if count < 0 then throw (.negativePairCount count)
  let pairs ← times count.toInt.toNat (keyedTarget offset)
  return ⟨offset, .lookupSwitch .dangling (pairs.map (·.1)) [], default :: pairs.map (·.2)⟩

/-- Opcodes that name a local variable. -/
def isLocalAccess (code : UInt8) : Bool :=
  Opcode.between Opcode.iload Opcode.aload code || Opcode.between Opcode.istore Opcode.astore code
    || code == Opcode.ret

/-- Operands of two bytes where others have one. -/
def wide (insn : Insn → Located) : Reader Located := do
  let inner ← u8
  if inner = Opcode.iinc then
    let var ← u16
    return insn (.iinc var (← i16))
  else if isLocalAccess inner then return insn (.var inner (← u16))
  else throw (.badWideOpcode inner)

/-- A local access with the variable inside the opcode. -/
def shortForm (code first base : UInt8) : Insn :=
  .var (base + (code - first) / 4) ((code - first) % 4).toUInt16

/-- Opcodes without operands. -/
def isPlain (code : UInt8) : Bool :=
  code ≤ Opcode.dconst1 || Opcode.between Opcode.iaload Opcode.saload code
    || Opcode.between Opcode.iastore Opcode.lxor code || Opcode.between Opcode.i2l Opcode.dcmpg code
    || Opcode.between Opcode.ireturn Opcode.returnVoid code || code == Opcode.arraylength
    || code == Opcode.athrow || code == Opcode.monitorenter || code == Opcode.monitorexit

def isTypeInsn (code : UInt8) : Bool :=
  code == Opcode.newObject || code == Opcode.anewarray || code == Opcode.checkcast
    || code == Opcode.instanceOf

/-- Jumps with a displacement of two bytes. -/
def isShortJump (code : UInt8) : Bool :=
  Opcode.between Opcode.ifeq Opcode.jsr code || code == Opcode.ifnull || code == Opcode.ifnonnull

/-- Reads the operands of an opcode. -/
def readInsn (pool : ConstantPool) (offset : Nat) (code : UInt8) : Reader Located :=
  let alone (insn : Insn) : Located := ⟨offset, insn, []⟩
  if isPlain code then return alone (.op code)
  else if code = Opcode.bipush then do return alone (.push code (← i8).toInt32)
  else if code = Opcode.sipush then do return alone (.push code (← i16).toInt32)
  else if code = Opcode.ldc then do
    let index := (← u8).toUInt16
    return alone (.ldc index (← lift (pool.loadable index)))
  else if code = Opcode.ldcW ∨ code = Opcode.ldc2W then do
    let index ← u16
    return alone (.ldc index (← lift (pool.loadable index)))
  else if isLocalAccess code then do return alone (.var code (← u8).toUInt16)
  else if Opcode.between Opcode.iload0 Opcode.aload3 code then
    return alone (shortForm code Opcode.iload0 Opcode.iload)
  else if Opcode.between Opcode.istore0 Opcode.astore3 code then
    return alone (shortForm code Opcode.istore0 Opcode.istore)
  else if code = Opcode.iinc then do
    let var := (← u8).toUInt16
    return alone (.iinc var (← i8).toInt16)
  else if isShortJump code then do
    return ⟨offset, .jump code .dangling, [← shortTarget offset]⟩
  else if code = Opcode.gotoW then do
    return ⟨offset, .jump Opcode.goto .dangling, [← longTarget offset]⟩
  else if code = Opcode.jsrW then do
    return ⟨offset, .jump Opcode.jsr .dangling, [← longTarget offset]⟩
  else if code = Opcode.tableswitch then tableSwitch offset
  else if code = Opcode.lookupswitch then lookupSwitch offset
  else if Opcode.between Opcode.getstatic Opcode.putfield code then do
    let index ← u16
    return alone (.field code index (← lift (pool.member index)).1)
  else if Opcode.between Opcode.invokevirtual Opcode.invokeinterface code then do
    let index ← u16
    if code = Opcode.invokeinterface then
      let _ ← u8
      let _ ← u8
    let (member, interface) ← lift (pool.member index)
    return alone (.invoke code index member interface)
  else if code = Opcode.invokedynamic then do
    let index ← u16
    let _ ← u16
    let (name, descriptor) ← lift (pool.invokeDynamic index)
    return alone (.invokeDynamic index name descriptor)
  else if isTypeInsn code then do
    let index ← u16
    return alone (.type code index (← lift (pool.className index)))
  else if code = Opcode.newarray then do return alone (.newArray (← u8))
  else if code = Opcode.multianewarray then do
    let index ← u16
    let className ← lift (pool.className index)
    return alone (.multiNewArray index className (← u8))
  else if code = Opcode.wide then wide alone
  else throw (.unknownOpcode code)

/-- Reads one instruction. -/
def readOne (pool : ConstantPool) : Reader Located := do
  let offset := (← get).offset
  let code ← u8
  reading (.decodingOpcode code offset) (readInsn pool offset code)

/-- Reads instructions to the end, after the reversed `done`; each takes a byte at least. -/
def readAll (pool : ConstantPool) : Nat → List Located → Reader (List Located)
  | 0, done => return done.reverse
  | count + 1, done => do
    if (← get).rest.isEmpty then return done.reverse
    else readAll pool count ((← readOne pool) :: done)

/-- The instructions of a code array. -/
def located (pool : ConstantPool) (code : List UInt8) : Except Fault (List Located) :=
  (readAll pool code.length []).of code

/-! ## Tables of a code attribute -/

/-- An entry of a table of local variables, over offsets. -/
structure LocalRange where
  start : Nat
  stop : Nat
  nameIndex : UInt16
  descriptorIndex : UInt16
  index : UInt16
  isTypeEntry : Bool
  deriving DecidableEq, Repr

/-- Offsets with their line, and ranges of local variables. -/
structure Tables where
  lines : List (Nat × UInt16)
  locals : List LocalRange

def readLine : Reader (Nat × UInt16) := do
  let start ← u16
  return (start.toNat, ← u16)

def readLocal (isTypeEntry : Bool) : Reader LocalRange := do
  let start ← u16
  let length ← u16
  let nameIndex ← u16
  let descriptorIndex ← u16
  let index ← u16
  return ⟨start.toNat, start.toNat + length.toNat, nameIndex, descriptorIndex, index, isTypeEntry⟩

def lineTable : String := "LineNumberTable"

def localTable : String := "LocalVariableTable"

def localTypeTable : String := "LocalVariableTypeTable"

/-- Adds what an attribute says of lines and local variables. -/
def Tables.add (pool : ConstantPool) (tables : Tables) (a : Attribute) : Except Fault Tables := do
  let name ← pool.utf8 a.nameIndex
  if name = lineTable then
    return { tables with lines := tables.lines ++ (← (Reader.table readLine).of a.info) }
  else if name = localTable then
    return { tables with locals := tables.locals ++ (← (Reader.table (readLocal false)).of a.info) }
  else if name = localTypeTable then
    return { tables with locals := tables.locals ++ (← (Reader.table (readLocal true)).of a.info) }
  else return tables

def Tables.ofAttributes (pool : ConstantPool) (attributes : List Attribute) : Except Fault Tables :=
  attributes.foldlM (Tables.add pool) ⟨[], []⟩

/-! ## Labels -/

/-- All offsets that are referred to. -/
def referenced (insns : List Located) (handlers : List HandlerRange) (tables : Tables) : List Nat :=
  insns.flatMap (·.targets)
    ++ handlers.flatMap (fun h => [h.start.toNat, h.stop.toNat, h.handler.toNat])
    ++ tables.lines.map (·.1) ++ tables.locals.flatMap fun l => [l.start, l.stop]

/-- Labels of offsets, by offset. -/
structure Labels where
  nodes : Array (Option NodeId)

namespace Labels

/-- Labels for increasing offsets, numbered in that order. -/
def ofOffsets (size : Nat) (offsets : List Nat) : Labels :=
  ⟨(offsets.zip (List.range offsets.length)).foldl
    (fun nodes (offset, n) => nodes.setIfInBounds offset (some ⟨n⟩)) (Array.replicate size none)⟩

def find? (labels : Labels) (offset : Nat) : Option NodeId := labels.nodes.getD offset none

def find (labels : Labels) (offset : Nat) : NodeId := (labels.find? offset).getD .dangling

end Labels

/-- Puts labels in the place of offsets. -/
def Located.link (labels : Labels) (l : Located) : Insn :=
  match l.insn, l.targets.map labels.find with
  | .jump code _, target :: _ => .jump code target
  | .tableSwitch low _ _, default :: targets => .tableSwitch low default targets
  | .lookupSwitch _ keys _, default :: targets => .lookupSwitch default keys targets
  | insn, _ => insn

/-- Lines of each offset, in table order. -/
def linesByOffset (size : Nat) (lines : List (Nat × UInt16)) : Array (List UInt16) :=
  lines.foldr (fun (offset, line) table => table.modify offset (line :: ·)) (Array.replicate size [])

/-- Places the label of an offset, if it has one. -/
def placeLabel (labels : Labels) (list : InsnList) (offset : Nat) : InsnList :=
  match labels.find? offset with
  | some id => list.append id
  | none => list

/-- Places the label and the lines of an instruction, and the instruction. -/
def place (labels : Labels) (lines : Array (List UInt16)) (list : InsnList) (l : Located) : InsnList :=
  let list := placeLabel labels list l.offset
  let list := (lines.getD l.offset []).foldl (fun list line => (list.push (.line line)).1) list
  (list.push (l.link labels)).1

/-- A region over labels. -/
def region (pool : ConstantPool) (labels : Labels) (h : HandlerRange) : Except Fault Region := do
  let catchType ← if h.catchType = 0 then pure none else some <$> pool.className h.catchType
  return ⟨labels.find h.start.toNat, labels.find h.stop.toNat, labels.find h.handler.toNat, catchType⟩

def localEntry (labels : Labels) (l : LocalRange) : LocalEntry :=
  ⟨labels.find l.start, labels.find l.stop, l.nameIndex, l.descriptorIndex, l.index, l.isTypeEntry⟩

end Code

namespace Body

open Code

/-- The body that a code attribute spells. -/
def decode (pool : ConstantPool) (code : CodeAttribute) : Except Fault Body := do
  let insns ← located pool code.code
  let length := code.code.length
  let tables ← Tables.ofAttributes pool code.attributes
  let references := referenced insns code.handlers tables
  let boundaries := Std.HashSet.ofList (length :: insns.map (·.offset))
  match (references.filter (!boundaries.contains ·)).min? with
  | some offset => throw (.noInsnBoundary offset)
  | none =>
    let size := length + 1
    let offsets := Graph.members (Graph.mark size references)
    let labels := Labels.ofOffsets size offsets
    let start : InsnList := ⟨Array.replicate offsets.length .label, #[]⟩
    let list := insns.foldl (place labels (linesByOffset size tables.lines)) start
    let regions ← code.handlers.mapM (region pool labels)
    return { insns := placeLabel labels list length
             regions := regions
             locals := tables.locals.map (localEntry labels)
             maxStack := code.maxStack
             maxLocals := code.maxLocals }

end Body

end DirectCall
