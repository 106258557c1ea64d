import DirectCall.Bytes.Reader
import DirectCall.Bytes.Writer
import DirectCall.ConstantPool

/-!
# Constant pools as bytes

Every entry is a tag and its operands. A pool starts with its number of slots, and a long or double
takes two of them.
-/

namespace DirectCall.ConstantPool

open Bytes Bytes.Reader

/-- Tag of an entry; unusable slots are not written. -/
def Entry.tag : Entry → UInt8
  | .unusable => 0
  | .utf8 _ => 1
  | .int _ => 3
  | .float _ => 4
  | .long _ => 5
  | .double _ => 6
  | .classRef _ => 7
  | .string _ => 8
  | .fieldRef _ _ => 9
  | .methodRef _ _ => 10
  | .interfaceMethodRef _ _ => 11
  | .nameAndType _ _ => 12
  | .methodHandle _ _ => 15
  | .methodType _ => 16
  | .dynamic _ _ => 17
  | .invokeDynamic _ _ => 18
  | .module _ => 19
  | .package _ => 20

/-- A text with its length in bytes. -/
def readUtf8 (index : Nat) : Reader Entry := do
  let length ← u16
  let spelling ← bytes length.toNat
  match Text.ModifiedUtf8.decode spelling with
  | .ok text => return .utf8 text
  | .error cause => throw (.within (.utf8Constant index) (.modifiedUtf8 cause))

def pair (make : UInt16 → UInt16 → Entry) : Reader Entry := do
  let first ← u16
  let second ← u16
  return make first second

/-- The operands of the entry for slot `index`. -/
def readEntry (index : Nat) (tag : UInt8) : Reader Entry :=
  match tag.toNat with
  | 1 => readUtf8 index
  | 3 => .int <$> i32
  | 4 => .float <$> u32
  | 5 => do return .long (← u64).toInt64
  | 6 => .double <$> u64
  | 7 => .classRef <$> u16
  | 8 => .string <$> u16
  | 9 => pair .fieldRef
  | 10 => pair .methodRef
  | 11 => pair .interfaceMethodRef
  | 12 => pair .nameAndType
  | 15 => do
    let kind ← u8
    let reference ← u16
    return .methodHandle kind reference
  | 16 => .methodType <$> u16
  | 17 => pair .dynamic
  | 18 => pair .invokeDynamic
  | 19 => .module <$> u16
  | 20 => .package <$> u16
  | _ => throw (.unknownTag tag index)

/-- Reads entries until the slots are used up; each takes at least one of the `missing` ones. -/
def readEntries (count : Nat) : Nat → Array Entry → Reader (Array Entry)
  | 0, entries => return entries
  | missing + 1, entries =>
    if entries.size < count then do
      let tag ← u8
      let entry ← readEntry entries.size tag
      readEntries count missing (entries ++ entry.slots.toArray)
    else return entries

def read : Reader ConstantPool := do
  let count := (← u16).toNat
  let entries ← readEntries count count #[.unusable]
  if entries.size = count then return ⟨entries⟩
  else throw (.poolOverrun count)

/-- Operands of an entry. -/
def Entry.operands : Entry → Except Fault (List UInt8)
  | .unusable => .ok []
  | .utf8 text =>
    let spelling := Text.ModifiedUtf8.encode text
    if spelling.length > 65535 then .error .utf8TooLong
    else .ok (ofUInt16 spelling.length.toUInt16 ++ spelling)
  | .int value => .ok (ofInt32 value)
  | .float bits => .ok (ofUInt32 bits)
  | .long value => .ok (ofInt64 value)
  | .double bits => .ok (ofUInt64 bits)
  | .classRef index => .ok (ofUInt16 index)
  | .string index => .ok (ofUInt16 index)
  | .methodType index => .ok (ofUInt16 index)
  | .module index => .ok (ofUInt16 index)
  | .package index => .ok (ofUInt16 index)
  | .fieldRef a b => .ok (ofUInt16 a ++ ofUInt16 b)
  | .methodRef a b => .ok (ofUInt16 a ++ ofUInt16 b)
  | .interfaceMethodRef a b => .ok (ofUInt16 a ++ ofUInt16 b)
  | .nameAndType a b => .ok (ofUInt16 a ++ ofUInt16 b)
  | .dynamic a b => .ok (ofUInt16 a ++ ofUInt16 b)
  | .invokeDynamic a b => .ok (ofUInt16 a ++ ofUInt16 b)
  | .methodHandle kind index => .ok (kind :: ofUInt16 index)

def Entry.write (entry : Entry) : Except Fault (List UInt8) :=
  if entry = .unusable then .ok [] else do return entry.tag :: (← entry.operands)

def write (pool : ConstantPool) : Except Fault (List UInt8) :=
  if pool.size > 65535 then .error .poolTooLong
  else do
    return ofUInt16 pool.size.toUInt16 ++ (← concat (pool.entries.toList.map Entry.write))

end DirectCall.ConstantPool
