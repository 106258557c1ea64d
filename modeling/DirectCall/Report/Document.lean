/-!
# Documents

Objects, arrays, texts and numbers, and their written form: two spaces for each level, one field or
item a line.
-/

namespace DirectCall

inductive Document where
  | number (n : Nat)
  | flag (value : Bool)
  | text (value : String)
  | array (items : List Document)
  | object (fields : List (String × Document))
  deriving Repr

namespace Document

/-- An object with one field. -/
def single (name : String) (value : Document) : Document := .object [(name, value)]

/-- Four hexadecimal digits. -/
def hex4 (n : Nat) : String :=
  String.ofList ([n / 4096, n / 256, n / 16, n].map fun d => Nat.digitChar (d % 16))

/-- Spelling of a character between quotes: what ends a text and control characters are escaped. -/
def escape (c : Char) : String :=
  match c with
  | '"' => "\\\""
  | '\\' => "\\\\"
  | '\x08' => "\\b"
  | '\t' => "\\t"
  | '\n' => "\\n"
  | '\x0c' => "\\f"
  | '\r' => "\\r"
  | c => if c.toNat < 0x20 then "\\u" ++ hex4 c.toNat else c.toString

def quote (value : String) : String := "\"" ++ String.join (value.toList.map escape) ++ "\""

/-- A new line at a depth. -/
def newLine (depth : Nat) : String := "\n" ++ String.ofList (List.replicate (2 * depth) ' ')

/-- Parts between brackets, each on a line at a depth. -/
def bracket (opening closing : String) (depth : Nat) (parts : List String) : String :=
  if parts.isEmpty then opening ++ closing
  else
    opening ++ newLine (depth + 1) ++ (("," ++ newLine (depth + 1)).intercalate parts) ++ newLine depth
      ++ closing

mutual

/-- The written form at a depth. -/
def renderAt (depth : Nat) : Document → String
  | .number n => toString n
  | .flag value => if value then "true" else "false"
  | .text value => quote value
  | .array items => bracket "[" "]" depth (renderItems (depth + 1) items)
  | .object fields => bracket "\x7b" "\x7d" depth (renderFields (depth + 1) fields)
termination_by structural d => d

def renderItems (depth : Nat) : List Document → List String
  | [] => []
  | item :: rest => renderAt depth item :: renderItems depth rest
termination_by structural items => items

def renderFields (depth : Nat) : List (String × Document) → List String
  | [] => []
  | (name, value) :: rest => (quote name ++ ": " ++ renderAt depth value) :: renderFields depth rest
termination_by structural fields => fields

end

/-- The written form, which ends a line. -/
def render (d : Document) : String := d.renderAt 0 ++ "\n"

end Document

end DirectCall
