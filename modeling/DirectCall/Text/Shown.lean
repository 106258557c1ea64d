import DirectCall.Text.Printable

/-!
# Values inside messages

Texts inside messages stand between double quotes, with quotes, backslashes and characters that do not
print escaped. Structured values are shown as `Name(first, second)`, as `Name { field: value }` and as
`[first, second]`.
-/

namespace DirectCall.Text.Quoted

/-- Lowercase hexadecimal digits of `n`, at least `width` of them. -/
def hex (width n : Nat) : String :=
  let digits := Nat.toDigits 16 n
  String.ofList (List.replicate (width - digits.length) '0' ++ digits)

/-- Spelling of one character between quotes. -/
def escape (c : Char) : String :=
  match c with
  | '"' => "\\\""
  | '\\' => "\\\\"
  | '\n' => "\\n"
  | '\t' => "\\t"
  | '\r' => "\\r"
  | '\x00' => "\\0"
  | c => if Printable.isPrintable c then c.toString else "\\u\x7b" ++ hex 1 c.toNat ++ "\x7d"

def quote (text : String) : String :=
  "\"" ++ String.join (text.toList.map escape) ++ "\""

end DirectCall.Text.Quoted

namespace DirectCall.Text.Shown

def commaSeparated (items : List String) : String := ", ".intercalate items

def tuple (name : String) (items : List String) : String :=
  name ++ "(" ++ commaSeparated items ++ ")"

def record (name : String) (fields : List (String × String)) : String :=
  name ++ " \x7b " ++ commaSeparated (fields.map fun (field, value) => field ++ ": " ++ value)
    ++ " \x7d"

def list (items : List String) : String := "[" ++ commaSeparated items ++ "]"

/-- A byte in hexadecimal. -/
def byte (b : UInt8) : String := "0x" ++ Quoted.hex 2 b.toNat

end DirectCall.Text.Shown
