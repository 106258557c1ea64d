/-!
# Modified UTF-8

The text encoding of class files. A text is spelt in 16-bit units, a character above `U+FFFF` as a
surrogate pair (`Utf16.encode`), and every unit on its own, in one to three bytes. The unit zero takes two
bytes, so that no encoded text holds a zero byte. A surrogate that stands alone is refused.
-/

/-! ## UTF-16 code units -/

namespace DirectCall.Text.Utf16

/-- Units of one character. -/
def encodeChar (c : Char) : List UInt16 :=
  let n := c.toNat
  if n < 0x10000 then [n.toUInt16]
  else
    let m := n - 0x10000
    [(0xD800 + m / 0x400).toUInt16, (0xDC00 + m % 0x400).toUInt16]

def encode (text : List Char) : List UInt16 :=
  text.flatMap encodeChar

/-- The first half of a surrogate pair. -/
def isHigh (u : UInt16) : Bool := 0xD800 ≤ u && u < 0xDC00

/-- The second half of a surrogate pair. -/
def isLow (u : UInt16) : Bool := 0xDC00 ≤ u && u < 0xE000

/-- The character of a surrogate pair. -/
def pair (high low : UInt16) : Char :=
  Char.ofNat (0x10000 + (high.toNat - 0xD800) * 0x400 + (low.toNat - 0xDC00))

/-- Characters read after the reversed `read` ones. -/
def decodeFrom (read : List Char) : List UInt16 → Option (List Char)
  | [] => some read.reverse
  | u :: rest =>
    if isLow u then none
    else if isHigh u then
      match rest with
      | [] => none
      | v :: rest => if isLow v then decodeFrom (pair u v :: read) rest else none
    else decodeFrom (Char.ofNat u.toNat :: read) rest

/-- The text that the units spell; `none` if a surrogate stands alone. -/
def decode (units : List UInt16) : Option (List Char) :=
  decodeFrom [] units

end DirectCall.Text.Utf16

/-! ## Bytes of units -/

namespace DirectCall.Text.ModifiedUtf8

/-- Why bytes do not spell a text. -/
inductive DecodeError where
  | rawNul
  | truncated
  | badLead (byte : UInt8)
  | loneSurrogate
  deriving DecidableEq, Repr

/-- Bytes of one unit. -/
def encodeUnit (u : UInt16) : List UInt8 :=
  let n := u.toNat
  if 1 ≤ n ∧ n ≤ 0x7F then [n.toUInt8]
  else if n ≤ 0x7FF then [(0xC0 + n / 64).toUInt8, (0x80 + n % 64).toUInt8]
  else [(0xE0 + n / 4096).toUInt8, (0x80 + n / 64 % 64).toUInt8, (0x80 + n % 64).toUInt8]

def encode (text : String) : List UInt8 :=
  (Utf16.encode text.toList).flatMap encodeUnit

/-- A byte of the form `10xxxxxx`. -/
def isContinuation (b : UInt8) : Bool := 0x80 ≤ b && b < 0xC0

/-- Low bits of a byte, as a number below `bound`. -/
def payload (b : UInt8) (bound : Nat) : Nat := b.toNat % bound

/-- Units read after the reversed `read` ones. -/
def unitsFrom (read : List UInt16) : List UInt8 → Except DecodeError (List UInt16)
  | [] => .ok read.reverse
  | a :: rest =>
    if a < 0x80 then
      if a = 0 then .error .rawNul else unitsFrom (a.toUInt16 :: read) rest
    else if 0xC0 ≤ a && a < 0xE0 then
      match rest with
      | b :: rest =>
        if isContinuation b then
          unitsFrom ((payload a 32 * 64 + payload b 64).toUInt16 :: read) rest
        else .error .truncated
      | [] => .error .truncated
    else if 0xE0 ≤ a && a < 0xF0 then
      match rest with
      | b :: c :: rest =>
        if isContinuation b && isContinuation c then
          unitsFrom ((payload a 16 * 4096 + payload b 64 * 64 + payload c 64).toUInt16 :: read) rest
        else .error .truncated
      | _ => .error .truncated
    else .error (.badLead a)

/-- Groups of one, two and three bytes as UTF-16 units. -/
def units (bytes : List UInt8) : Except DecodeError (List UInt16) :=
  unitsFrom [] bytes

/-- The text that the bytes spell; a group that is longer than it need be is accepted. -/
def decode (bytes : List UInt8) : Except DecodeError String :=
  match units bytes with
  | .error e => .error e
  | .ok us =>
    match Utf16.decode us with
    | some text => .ok (String.ofList text)
    | none => .error .loneSurrogate

end DirectCall.Text.ModifiedUtf8
