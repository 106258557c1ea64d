/-!
# Deflated data

Reads the compressed form that archives use: blocks of stored bytes, or of codes for bytes and for
repetitions of what came before. Bits are taken from the low end of each byte; codes are canonical, so
that their lengths alone determine them.
-/

namespace DirectCall.Archive

/-- Bytes as a row of bits, with the place of the next one. -/
structure BitSource where
  data : ByteArray
  place : Nat

/-- Reads from a row of bits, or finds it faulty. -/
abbrev BitReader := StateT BitSource Option

def bit : BitReader Nat := fun s =>
  if h : s.place / 8 < s.data.size then
    some ((s.data[s.place / 8].toNat >>> (s.place % 8)) % 2, { s with place := s.place + 1 })
  else none

/-- A number of `width` bits, lowest first. -/
def bitNumber : Nat → BitReader Nat
  | 0 => return 0
  | width + 1 => do
    let low ← bit
    return low + 2 * (← bitNumber width)

/-- Goes on to the next whole byte. -/
def alignToByte : BitReader Unit := modify fun s => { s with place := (s.place + 7) / 8 * 8 }

/-! ## Codes -/

/-- A canonical code: how many codes there are of each length, and the symbols in their order. -/
structure PrefixCode where
  counts : List Nat
  symbols : Array Nat

def longestCode : Nat := 15

/-- The code whose symbols have these lengths; a symbol of length zero does not occur. -/
def PrefixCode.ofLengths (lengths : List Nat) : PrefixCode :=
  let ofLength (n : Nat) : List Nat :=
    (lengths.zipIdx.filter fun (length, _) => length == n + 1).map (·.2)
  let groups := (List.range longestCode).map ofLength
  ⟨groups.map (·.length), groups.flatten.toArray⟩

/-- Reads a symbol. Of the codes of the next length `first` is the least, and its symbol has the number
`index`; `code` is what was read so far. -/
def PrefixCode.readFrom (c : PrefixCode) (code first index : Nat) : List Nat → BitReader Nat
  | [] => failure
  | count :: counts => do
    let code := 2 * code + (← bit)
    let first := 2 * first
    if code < first + count then
      match c.symbols[index + (code - first)]? with
      | some symbol => return symbol
      | none => failure
    else c.readFrom code (first + count) (index + count) counts

def PrefixCode.read (c : PrefixCode) : BitReader Nat := c.readFrom 0 0 0 c.counts

/-! ## Repetitions -/

/-- Least lengths and distances of the symbols, with the bits that add to them. -/
def lengthRow : List (Nat × Nat) :=
  [(3, 0), (4, 0), (5, 0), (6, 0), (7, 0), (8, 0), (9, 0), (10, 0), (11, 1), (13, 1), (15, 1), (17, 1),
   (19, 2), (23, 2), (27, 2), (31, 2), (35, 3), (43, 3), (51, 3), (59, 3), (67, 4), (83, 4), (99, 4),
   (115, 4), (131, 5), (163, 5), (195, 5), (227, 5), (258, 0)]

def distanceRow : List (Nat × Nat) :=
  [(1, 0), (2, 0), (3, 0), (4, 0), (5, 1), (7, 1), (9, 2), (13, 2), (17, 3), (25, 3), (33, 4), (49, 4),
   (65, 5), (97, 5), (129, 6), (193, 6), (257, 7), (385, 7), (513, 8), (769, 8), (1025, 9), (1537, 9),
   (2049, 10), (3073, 10), (4097, 11), (6145, 11), (8193, 12), (12289, 12), (16385, 13), (24577, 13)]

/-- A value of a row: the least one of its symbol and some bits more. -/
def rowValue (row : List (Nat × Nat)) (symbol : Nat) : BitReader Nat :=
  match row[symbol]? with
  | some (least, width) => do return least + (← bitNumber width)
  | none => failure

/-- Repeats bytes from `distance` back. -/
def repeatBack (distance : Nat) : Nat → ByteArray → BitReader ByteArray
  | 0, out => return out
  | count + 1, out =>
    if h : 0 < distance ∧ distance ≤ out.size then
      repeatBack distance count (out.push out[out.size - distance])
    else failure

/-! ## Blocks -/

/-- Stored bytes. -/
def storedBytes : Nat → ByteArray → BitReader ByteArray
  | 0, out => return out
  | count + 1, out => do storedBytes count (out.push (← bitNumber 8).toUInt8)

/-- Coded bytes and repetitions up to the end of a block; each symbol takes one of the `fuel` bits at
least. -/
def codedBytes (literals distances : PrefixCode) : Nat → ByteArray → BitReader ByteArray
  | 0, _ => failure
  | fuel + 1, out => do
    let symbol ← literals.read
    if symbol < 256 then codedBytes literals distances fuel (out.push symbol.toUInt8)
    else if symbol = 256 then return out
    else
      let length ← rowValue lengthRow (symbol - 257)
      let distance ← rowValue distanceRow (← distances.read)
      codedBytes literals distances fuel (← repeatBack distance length out)

/-- The codes of blocks that state none. -/
def fixedLiterals : PrefixCode :=
  .ofLengths (List.replicate 144 8 ++ List.replicate 112 9 ++ List.replicate 24 7 ++ List.replicate 8 8)

def fixedDistances : PrefixCode := .ofLengths (List.replicate 30 5)

/-- Lengths of codes, in which repetitions are coded too; `read` has those read so far, last first. -/
def codeLengths (code : PrefixCode) (count : Nat) : Nat → List Nat → BitReader (List Nat)
  | 0, _ => failure
  | fuel + 1, read =>
    if read.length = count then return read.reverse
    else if count < read.length then failure
    else do
      match ← code.read with
      | 16 =>
        match read with
        | last :: _ =>
          codeLengths code count fuel (List.replicate (3 + (← bitNumber 2)) last ++ read)
        | [] => failure
      | 17 => codeLengths code count fuel (List.replicate (3 + (← bitNumber 3)) 0 ++ read)
      | 18 => codeLengths code count fuel (List.replicate (11 + (← bitNumber 7)) 0 ++ read)
      | length => codeLengths code count fuel (length :: read)

/-- The order in which the lengths of the code for lengths are written. -/
def lengthOrder : List Nat := [16, 17, 18, 0, 8, 7, 9, 6, 10, 5, 11, 4, 12, 3, 13, 2, 14, 1, 15]

/-- The codes that a block states ahead of its data. -/
def statedCodes : BitReader (PrefixCode × PrefixCode) := do
  let literals := 257 + (← bitNumber 5)
  let distances := 1 + (← bitNumber 5)
  let stated := 4 + (← bitNumber 4)
  let lengths ← (lengthOrder.take stated).mapM fun symbol => do return (symbol, ← bitNumber 3)
  let code := PrefixCode.ofLengths ((List.range 19).map fun symbol => (lengths.lookup symbol).getD 0)
  let all ← codeLengths code (literals + distances) (literals + distances + 1) []
  return (.ofLengths (all.take literals), .ofLengths (all.drop literals))

/-- Blocks up to the last one; each takes some of the `fuel` bits. -/
def blocks : Nat → ByteArray → BitReader ByteArray
  | 0, _ => failure
  | fuel + 1, out => do
    let isLast ← bit
    let out ← match ← bitNumber 2 with
      | 0 => do
        alignToByte
        let length ← bitNumber 16
        let _ ← bitNumber 16
        storedBytes length out
      | 1 => codedBytes fixedLiterals fixedDistances fuel out
      | 2 => do
        let (literals, distances) ← statedCodes
        codedBytes literals distances fuel out
      | _ => failure
    if isLast = 1 then return out else blocks fuel out

/-- The bytes that compressed data stand for. -/
def inflate (data : ByteArray) : Option ByteArray :=
  ((blocks (8 * data.size) .empty).run ⟨data, 0⟩).map (·.1)

end DirectCall.Archive
