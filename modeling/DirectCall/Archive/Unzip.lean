import DirectCall.Archive.Inflate
import DirectCall.Archive.Zip

/-!
# Reading zip archives

The end record, found from the back, says where the directory is; a line of the directory says where the
header of an entry is and how long its data are. Data are stored or deflated.
-/

namespace DirectCall.Archive

/-- A little-endian number of `width` bytes at an offset. -/
def numberAt (data : ByteArray) (offset : Nat) : Nat → Option Nat
  | 0 => some 0
  | width + 1 =>
    if h : offset < data.size then
      (numberAt data (offset + 1) width).map fun high => data[offset].toNat + 256 * high
    else none

/-- Bytes of a range that lies within the data. -/
def range? (data : ByteArray) (offset length : Nat) : Option ByteArray :=
  if offset + length ≤ data.size then some (data.extract offset (offset + length)) else none

/-- The last offset up to `offset` at which an end record starts. -/
def endRecord? (data : ByteArray) : Nat → Option Nat
  | 0 => if numberAt data 0 4 = some endSignature then some 0 else none
  | offset + 1 =>
    if numberAt data (offset + 1) 4 = some endSignature then some (offset + 1)
    else endRecord? data offset

/-- The content of an entry, by the way that it was compressed. -/
def content? (method : Nat) (data : ByteArray) : Option ByteArray :=
  match method with
  | 0 => some data
  | 8 => inflate data
  | _ => none

/-- The entry on the line of the directory at an offset, and the offset of the next line. -/
def entryAt? (data : ByteArray) (offset : Nat) : Option ((String × List UInt8) × Nat) := do
  if (← numberAt data offset 4) ≠ directorySignature then failure
  let method ← numberAt data (offset + 10) 2
  let length ← numberAt data (offset + 20) 4
  let nameLength ← numberAt data (offset + 28) 2
  let extraLength ← numberAt data (offset + 30) 2
  let commentLength ← numberAt data (offset + 32) 2
  let header ← numberAt data (offset + 42) 4
  let name ← String.fromUTF8? (← range? data (offset + 46) nameLength)
  if (← numberAt data header 4) ≠ headerSignature then failure
  let start := header + 30 + (← numberAt data (header + 26) 2) + (← numberAt data (header + 28) 2)
  let content ← content? method (← range? data start length)
  return ((name, content.data.toList), offset + 46 + nameLength + extraLength + commentLength)

/-- Entries of the directory from an offset on. -/
def entriesFrom? (data : ByteArray) : Nat → Nat → Option (List (String × List UInt8))
  | 0, _ => some []
  | count + 1, offset => do
    let (entry, next) ← entryAt? data offset
    return entry :: (← entriesFrom? data count next)

/-- The entries of an archive. -/
def decode? (bytes : List UInt8) : Option (List (String × List UInt8)) := do
  let data : ByteArray := ⟨bytes.toArray⟩
  let last ← endRecord? data data.size
  entriesFrom? data (← numberAt data (last + 10) 2) (← numberAt data (last + 16) 4)

end DirectCall.Archive
