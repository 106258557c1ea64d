import DirectCall.Fault

/-!
# Reading bytes

A reader takes bytes off the front of what is left and keeps count of the offset. Numbers are
big-endian. A read that asks for more than is left fails as a whole.
-/

namespace DirectCall.Bytes

/-- The bytes not read yet, and how many were. -/
structure Cursor where
  offset : Nat
  rest : List UInt8
  deriving DecidableEq, Repr

def Cursor.start (bytes : List UInt8) : Cursor := ⟨0, bytes⟩

/-- Reads a value or fails. -/
abbrev Reader := StateT Cursor (Except Fault)

namespace Reader

/-- The next `count` bytes. -/
def bytes (count : Nat) : Reader (List UInt8) := fun c =>
  let (taken, rest) := c.rest.splitAt count
  if taken.length = count then .ok (taken, ⟨c.offset + count, rest⟩)
  else .error (.unexpectedEnd count c.offset)

/-- The number that bytes spell after `high`. -/
def bigEndian (high : Nat) : List UInt8 → Nat
  | [] => high
  | b :: rest => bigEndian (high * 256 + b.toNat) rest

/-- A number of `count` bytes. -/
def number (count : Nat) : Reader Nat := do
  return bigEndian 0 (← bytes count)

def u8 : Reader UInt8 := do return (← number 1).toUInt8

def u16 : Reader UInt16 := do return (← number 2).toUInt16

def u32 : Reader UInt32 := do return (← number 4).toUInt32

/-- Eight bytes, read as two halves. -/
def u64 : Reader UInt64 := do
  let high ← number 4
  let low ← number 4
  return (high * 0x100000000 + low).toUInt64

def i8 : Reader Int8 := do return (← u8).toInt8

def i16 : Reader Int16 := do return (← u16).toInt16

def i32 : Reader Int32 := do return (← u32).toInt32

/-- What `read` gives `count` times over, after the reversed `done`. -/
def timesFrom (read : Reader α) (done : List α) : Nat → Reader (List α)
  | 0 => return done.reverse
  | count + 1 => do timesFrom read ((← read) :: done) count

def times (count : Nat) (read : Reader α) : Reader (List α) := timesFrom read [] count

/-- A table: its length in two bytes, then the items. -/
def table (read : Reader α) : Reader (List α) := do
  times (← u16).toNat read

/-- A value that does not come from the bytes. -/
def lift (result : Except Fault α) : Reader α := fun c => result.map (·, c)

/-- Names what is read in a fault. -/
def reading (context : Context) (read : Reader α) : Reader α := fun c => during context (read c)

/-- Reads from the start of `data`; bytes left over are no fault. -/
def of (read : Reader α) (data : List UInt8) : Except Fault α :=
  (read (.start data)).map (·.1)

end Reader

end DirectCall.Bytes
