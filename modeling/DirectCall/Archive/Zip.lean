/-!
# Zip archives as bytes

An archive is written with every entry stored as it is: a header and the content for each entry, then
the directory that says where the headers are, then the end record. Numbers are little-endian. Of each
content there is a 32-bit check: the remainder of the bytes as a polynomial, least significant bit first.
-/

/-! ## The check -/

namespace DirectCall.Archive

/-- The generator, with the bits in the order of the register. -/
def generator : UInt32 := 0xEDB88320

/-- Shifts one bit out of the register. -/
def shiftOut (register : UInt32) : UInt32 :=
  if register &&& 1 = 1 then (register >>> 1) ^^^ generator else register >>> 1

/-- Takes a byte into the register. -/
def takeByte (register : UInt32) (byte : UInt8) : UInt32 :=
  Nat.repeat shiftOut 8 (register ^^^ byte.toUInt32)

def checksum (bytes : List UInt8) : UInt32 := ~~~(bytes.foldl takeByte 0xFFFFFFFF)

end DirectCall.Archive

/-! ## Headers and the directory -/

namespace DirectCall.Archive

/-- A number in two bytes. -/
def two (n : Nat) : List UInt8 := [n.toUInt8, (n / 0x100).toUInt8]

/-- A number in four bytes. -/
def four (n : Nat) : List UInt8 := two n ++ two (n / 0x10000)

def headerSignature : Nat := 0x04034b50
def directorySignature : Nat := 0x02014b50
def endSignature : Nat := 0x06054b50

/-- Version 2.0, names in UTF-8, stored, dated on the first day of the format. -/
def storedFields : List UInt8 := two 20 ++ two 0x0800 ++ two 0 ++ two 0 ++ two 0x21

/-- Fields that the header and the directory share for an entry. -/
def sharedFields (name : String) (content : List UInt8) : List UInt8 :=
  storedFields ++ four (checksum content).toNat ++ four content.length ++ four content.length
    ++ two name.utf8ByteSize ++ two 0

def nameBytes (name : String) : List UInt8 := name.toUTF8.data.toList

/-- An entry: header, name and content. -/
def storedEntry (name : String) (content : List UInt8) : List UInt8 :=
  four headerSignature ++ sharedFields name content ++ nameBytes name ++ content

/-- The line of the directory for an entry whose header is at an offset. -/
def directoryLine (offset : Nat) (name : String) (content : List UInt8) : List UInt8 :=
  four directorySignature ++ two 20 ++ sharedFields name content ++ two 0 ++ two 0 ++ two 0 ++ four 0
    ++ four offset ++ nameBytes name

/-- The directory of entries that start at an offset. -/
def directoryFrom (offset : Nat) : List (String × List UInt8) → List (List UInt8)
  | [] => []
  | (name, content) :: rest =>
    directoryLine offset name content
      :: directoryFrom (offset + (storedEntry name content).length) rest

/-- The archive of some entries. -/
def encode (entries : List (String × List UInt8)) : List UInt8 :=
  let contents := (entries.map fun (name, content) => storedEntry name content).flatten
  let directory := (directoryFrom 0 entries).flatten
  contents ++ directory ++ four endSignature ++ two 0 ++ two 0 ++ two entries.length
    ++ two entries.length ++ four directory.length ++ four contents.length ++ two 0

end DirectCall.Archive
