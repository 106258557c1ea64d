import DirectCall.Fault

/-!
# Constant pools

A pool only grows: an entry that is asked for and not there is added at the end, so indices in use
stay what they are. The look-ups follow references between entries and say what they found instead.
-/

namespace DirectCall

structure ConstantPool where
  entries : Array ConstantPool.Entry
  deriving Inhabited

namespace ConstantPool

open Entry

/-- A pool with nothing but the unusable slot. -/
def empty : ConstantPool := ⟨#[.unusable]⟩

/-- Number of slots, the unusable ones included. -/
def size (pool : ConstantPool) : Nat := pool.entries.size

/-! ## Look-ups -/

/-- The entry at a usable index. -/
def get (pool : ConstantPool) (index : UInt16) : Except Fault Entry :=
  match pool.entries[index.toNat]? with
  | none => .error (.badPoolIndex index)
  | some .unusable => .error (.badPoolIndex index)
  | some entry => .ok entry

def utf8 (pool : ConstantPool) (index : UInt16) : Except Fault String := do
  match ← pool.get index with
  | .utf8 text => return text
  | other => throw (.wrongEntry index .utf8 other)

def className (pool : ConstantPool) (index : UInt16) : Except Fault String := do
  match ← pool.get index with
  | .classRef name => pool.utf8 name
  | other => throw (.wrongEntry index .classRef other)

def moduleName (pool : ConstantPool) (index : UInt16) : Except Fault String := do
  match ← pool.get index with
  | .module name => pool.utf8 name
  | other => throw (.wrongEntry index .module other)

def packageName (pool : ConstantPool) (index : UInt16) : Except Fault String := do
  match ← pool.get index with
  | .package name => pool.utf8 name
  | other => throw (.wrongEntry index .package other)

/-- Name and descriptor. -/
def nameAndType (pool : ConstantPool) (index : UInt16) : Except Fault (String × String) := do
  match ← pool.get index with
  | .nameAndType name descriptor => return (← pool.utf8 name, ← pool.utf8 descriptor)
  | other => throw (.wrongEntry index .nameAndType other)

/-- The member with the given parts. -/
def memberAt (pool : ConstantPool) (owner nameAndType : UInt16) : Except Fault MemberRef := do
  let (name, descriptor) ← pool.nameAndType nameAndType
  return ⟨← pool.className owner, name, descriptor⟩

/-- A field or method, and whether it is named as one of an interface. -/
def member (pool : ConstantPool) (index : UInt16) : Except Fault (MemberRef × Bool) := do
  match ← pool.get index with
  | .fieldRef owner nat => return (← pool.memberAt owner nat, false)
  | .methodRef owner nat => return (← pool.memberAt owner nat, false)
  | .interfaceMethodRef owner nat => return (← pool.memberAt owner nat, true)
  | other => throw (.wrongEntry index .member other)

/-- Name and descriptor of a dynamic call. -/
def invokeDynamic (pool : ConstantPool) (index : UInt16) : Except Fault (String × String) := do
  match ← pool.get index with
  | .invokeDynamic _ nat => pool.nameAndType nat
  | other => throw (.wrongEntry index .invokeDynamic other)

/-- The constant that an instruction loads. -/
def loadable (pool : ConstantPool) (index : UInt16) : Except Fault Constant := do
  match ← pool.get index with
  | .int value => return .int value
  | .float bits => return .float bits
  | .long value => return .long value
  | .double bits => return .double bits
  | .string text => return .string (← pool.utf8 text)
  | .classRef name => return .classRef (← pool.utf8 name)
  | .methodType descriptor => return .methodType (← pool.utf8 descriptor)
  | .methodHandle _ _ => return .methodHandle
  | .dynamic _ nat => return .dynamic (← pool.nameAndType nat).2
  | other => throw (.wrongEntry index .loadable other)

/-- The entry is a reference to the named method of a class. -/
def refersTo (pool : ConstantPool) (owner name : String) : Entry → Bool
  | .methodRef class_ nat =>
    match pool.memberAt class_ nat with
    | .ok member => member.isNamed owner name
    | .error _ => false
  | _ => false

/-- Some entry refers to the named method of a class. -/
def references (pool : ConstantPool) (owner name : String) : Bool :=
  pool.entries.any (pool.refersTo owner name)

/-! ## Additions -/

/-- The index of an equal entry, which is added if there is none. Floating point entries are equal
if their bits are. -/
def intern (pool : ConstantPool) (entry : Entry) : Except Fault (UInt16 × ConstantPool) :=
  match pool.entries.findIdx? (· = entry) with
  | some index => .ok (index.toUInt16, pool)
  | none =>
    let index := pool.size
    if index + entry.slots.length > 65535 then .error .poolFull
    else .ok (index.toUInt16, ⟨pool.entries ++ entry.slots.toArray⟩)

/-- Steps that may add to a pool. What was added before a failure stays. -/
abbrev Edit := ExceptT Fault (StateM ConstantPool)

/-- The outcome of an edit and the pool after it. -/
def edit (pool : ConstantPool) (steps : Edit α) : Except Fault α × ConstantPool :=
  StateT.run (ExceptT.run steps) pool

def internM (entry : Entry) : Edit UInt16 :=
  ExceptT.mk fun pool =>
    match pool.intern entry with
    | .ok (index, pool) => (.ok index, pool)
    | .error e => (.error e, pool)

def utf8Index (text : String) : Edit UInt16 := internM (.utf8 text)

def classIndex (name : String) : Edit UInt16 := do internM (.classRef (← utf8Index name))

def stringIndex (text : String) : Edit UInt16 := do internM (.string (← utf8Index text))

def nameAndTypeIndex (name descriptor : String) : Edit UInt16 := do
  let name ← utf8Index name
  let descriptor ← utf8Index descriptor
  internM (.nameAndType name descriptor)

def methodIndex (m : MemberRef) (interface : Bool) : Edit UInt16 := do
  let owner ← classIndex m.owner
  let nat ← nameAndTypeIndex m.name m.descriptor
  internM (if interface then .interfaceMethodRef owner nat else .methodRef owner nat)

def fieldIndex (m : MemberRef) : Edit UInt16 := do
  let owner ← classIndex m.owner
  let nat ← nameAndTypeIndex m.name m.descriptor
  internM (.fieldRef owner nat)

/-- The index of a constant. Handles and dynamic constants cannot be made afresh. -/
def constantIndex : Constant → Edit UInt16
  | .int value => internM (.int value)
  | .float bits => internM (.float bits)
  | .long value => internM (.long value)
  | .double bits => internM (.double bits)
  | .string text => stringIndex text
  | .classRef name => classIndex name
  | .methodType descriptor => do internM (.methodType (← utf8Index descriptor))
  | .methodHandle => throw (.unsynthesizable .methodHandle)
  | .dynamic descriptor => throw (.unsynthesizable (.dynamic descriptor))

end ConstantPool

end DirectCall
