import DirectCall.Descriptor

/-!
# Method descriptors

`MethodDescriptor.parse` reads `(` parameter types `)` return type. Types are read one item at a
time; `V` is taken anywhere first, and a void parameter, an array of void and text after the return
type are refused afterwards, so that the first cause named is the one met first.
-/

namespace DirectCall

/-- A type as it stands in a method descriptor. -/
inductive TypeText where
  | void
  | primitive (p : Primitive)
  | object (name : List Char)
  | array (dimensions : Nat) (element : TypeText)
  deriving DecidableEq, Repr

namespace TypeText

def chars : TypeText → List Char
  | void => ['V']
  | primitive p => [p.letter]
  | object name => 'L' :: name ++ [';']
  | array dimensions element => List.replicate dimensions '[' ++ element.chars

def text (t : TypeText) : String := String.ofList t.chars

/-- The element type is `V`. -/
def hasVoid : TypeText → Bool
  | void => true
  | array _ element => element.hasVoid
  | _ => false

end TypeText

/-- Why a text is no method descriptor. -/
inductive DescriptorError where
  | noOpening
  | noSemicolon
  | unknownType
  | emptyArray
  | noReturnType
  | unexpectedEnd
  | tooManyDimensions
  | trailing
  | voidParameter (param : String)
  | voidArrayReturn
  deriving DecidableEq, Repr

namespace DescriptorError

def message (descriptor : String) : DescriptorError → String
  | noOpening => invalid "Invalid descriptor: Method descriptor must start with '('."
  | noSemicolon => invalid "Invalid descriptor: Missing semicolon in class name descriptor."
  | unknownType => invalid "Invalid descriptor: Unrecognized type descriptor."
  | emptyArray => invalid "Invalid descriptor: Invalid descriptor."
  | noReturnType => invalid "Invalid descriptor: Missing return type."
  | unexpectedEnd => invalid "Unexpected end of input."
  | tooManyDimensions => invalid "Array has too many dimensions."
  | trailing => "trailing characters in method descriptor " ++ descriptor
  | voidParameter param => "void parameter " ++ param ++ " in method descriptor " ++ descriptor
  | voidArrayReturn => "void array return type in method descriptor " ++ descriptor
where
  invalid (cause : String) : String := "invalid method descriptor " ++ descriptor ++ ": " ++ cause

end DescriptorError

/-- Field descriptors of the parameters, and the return type (a field descriptor or `V`). -/
structure MethodDescriptor where
  params : List String
  ret : String
  deriving DecidableEq, Repr

namespace MethodDescriptor

/-- Reads one type; `none` is the closing parenthesis. -/
def readElement : List Char → Except DescriptorError (Option TypeText × List Char)
  | [] => .error .unexpectedEnd
  | ')' :: rest => .ok (none, rest)
  | 'V' :: rest => .ok (some .void, rest)
  | 'L' :: rest =>
    match rest.dropWhile (· ≠ ';') with
    | [] => .error .noSemicolon
    | _ :: after => .ok (some (.object (rest.takeWhile (· ≠ ';'))), after)
  | c :: rest =>
    match Primitive.ofLetter? c with
    | some p => .ok (some (.primitive p), rest)
    | none => .error .unknownType

/-- Reads one type or the closing parenthesis, array dimensions included. -/
def readType (text : List Char) : Except DescriptorError (Option TypeText × List Char) :=
  let dimensions := (text.takeWhile (· = '[')).length
  if dimensions = 0 then readElement text
  else if dimensions > 255 then .error .tooManyDimensions
  else
    match readElement (text.dropWhile (· = '[')) with
    | .error e => .error e
    | .ok (none, _) => .error .emptyArray
    | .ok (some element, rest) => .ok (some (.array dimensions element), rest)

/-- Reads parameter types up to the closing parenthesis. No more than `fuel` items are read; the
text is no shorter than that. -/
def readParams : Nat → List Char → Except DescriptorError (List TypeText × List Char)
  | 0, _ => .error .unexpectedEnd
  | fuel + 1, text =>
    match readType text with
    | .error e => .error e
    | .ok (none, rest) => .ok ([], rest)
    | .ok (some t, rest) =>
      match readParams fuel rest with
      | .error e => .error e
      | .ok (ts, rest) => .ok (t :: ts, rest)

/-- Parameter types, return type and what stands after it. -/
def readTypes : List Char → Except DescriptorError (List TypeText × TypeText × List Char)
  | '(' :: text =>
    match readParams (text.length + 1) text with
    | .error e => .error e
    | .ok (params, rest) =>
      match readType rest with
      | .error e => .error e
      | .ok (none, _) => .error .noReturnType
      | .ok (some ret, rest) => .ok (params, ret, rest)
  | _ => .error .noOpening

def parse (descriptor : String) : Except DescriptorError MethodDescriptor :=
  match readTypes descriptor.toList with
  | .error e => .error e
  | .ok (params, ret, rest) =>
    if rest ≠ [] then .error .trailing
    else
      match params.find? (·.hasVoid) with
      | some param => .error (.voidParameter param.text)
      | none =>
        if ret ≠ .void ∧ ret.hasVoid then .error .voidArrayReturn
        else .ok ⟨params.map (·.text), ret.text⟩

/-- Slots that the parameters take. -/
def paramSlots (d : MethodDescriptor) : Nat :=
  d.params.foldr (fun p slots => Descriptor.size (some p) + slots) 0

/-- The parameter types between parentheses. -/
def spellParams (params : List String) : String :=
  "(" ++ String.join params ++ ")"

def paramsDescriptor (d : MethodDescriptor) : String := spellParams d.params

/-- The return type read off the end of a descriptor, `none` for `V` and without a parenthesis. -/
def resultOf? (descriptor : String) : Option String :=
  match ClassName.afterLast? ')' descriptor.toList with
  | some ret => if ret = ['V'] then none else some (String.ofList ret)
  | none => none

end MethodDescriptor

end DirectCall
