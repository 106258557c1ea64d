import DirectCall.Fault

/-!
# Spelling numbers as bytes

The counterparts of the readers: big-endian numbers, and tables with their length in two bytes.
-/

namespace DirectCall.Bytes

def ofUInt16 (n : UInt16) : List UInt8 := [(n >>> 8).toUInt8, n.toUInt8]

def ofUInt32 (n : UInt32) : List UInt8 :=
  [(n >>> 24).toUInt8, (n >>> 16).toUInt8, (n >>> 8).toUInt8, n.toUInt8]

def ofUInt64 (n : UInt64) : List UInt8 :=
  ofUInt32 (n >>> 32).toUInt32 ++ ofUInt32 n.toUInt32

def ofInt16 (n : Int16) : List UInt8 := ofUInt16 n.toUInt16

def ofInt32 (n : Int32) : List UInt8 := ofUInt32 n.toUInt32

def ofInt64 (n : Int64) : List UInt8 := ofUInt64 n.toUInt64

/-- The length of a table. -/
def tableLength (length : Nat) : Except Fault (List UInt8) :=
  if length ≤ 65535 then .ok (ofUInt16 length.toUInt16) else .error (.tableTooLong length)

/-- All of `parts`, unless one of them fails. -/
def concat (parts : List (Except Fault (List UInt8))) : Except Fault (List UInt8) := do
  return (← parts.mapM id).flatten

/-- A table: its length, then its items. -/
def table (items : List α) (write : α → Except Fault (List UInt8)) : Except Fault (List UInt8) := do
  return (← tableLength items.length) ++ (← concat (items.map write))

end DirectCall.Bytes
