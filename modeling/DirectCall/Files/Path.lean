import DirectCall.Descriptor

/-!
# Paths

A path is the list of its parts between slashes, so that its text stays as it was given. An empty
part stands for a slash at an end or for a doubled one; it names nothing, and neither does `.`.
-/

namespace DirectCall

structure Path where
  parts : List String
  deriving DecidableEq, Repr, Inhabited

namespace Path

/-- Texts between slashes. -/
def split : List Char → List (List Char)
  | [] => [[]]
  | c :: rest =>
    if c = '/' then [] :: split rest
    else
      match split rest with
      | [] => [[c]]
      | part :: parts => (c :: part) :: parts

/-- Parts of a text with slashes. -/
def partsOf (text : String) : List String := (split text.toList).map String.ofList

def ofText (text : String) : Path := ⟨partsOf text⟩

def text (p : Path) : String := "/".intercalate p.parts

/-- A part that stays where it is. -/
def isIdle (part : String) : Bool := part == "" || part == "."

/-- The last name; a path that goes up at its end has none. -/
def fileName? (p : Path) : Option String :=
  match p.parts.reverse.dropWhile isIdle with
  | [] => none
  | name :: _ => if name = ".." then none else some name

/-- The name without its extension. A dot in front starts no extension. -/
def stemOf (name : String) : String :=
  match ClassName.beforeLast? '.' name.toList with
  | none | some [] => name
  | some stem => String.ofList stem

/-- Text after the last dot, if there is one further back than the front. -/
def extensionOf? (name : String) : Option String :=
  match ClassName.beforeLast? '.' name.toList with
  | none | some [] => none
  | some stem => some (String.ofList (name.toList.drop (stem.length + 1)))

/-- The name without its extension; empty if there is no name. -/
def stem (p : Path) : String := (p.fileName?.map stemOf).getD ""

def extension? (p : Path) : Option String := p.fileName?.bind extensionOf?

/-- The path of a name beneath this one. -/
def child (p : Path) (name : String) : Path :=
  if p.parts.getLast? = some "" then ⟨p.parts.dropLast ++ [name]⟩ else ⟨p.parts ++ [name]⟩

/-- The path of names one beneath the other. -/
def descend (p : Path) (names : List String) : Path := names.foldl child p

/-- The path without its last part. -/
def parent (p : Path) : Path := ⟨p.parts.dropLast⟩

/-! ## Following a path -/

/-- The path starts with a slash. -/
def isAbsolute (p : Path) : Bool :=
  match p.parts with
  | "" :: _ :: _ => true
  | _ => false

/-- The path ends in a slash. -/
def endsInSlash (p : Path) : Bool :=
  match p.parts.reverse with
  | "" :: _ :: _ => true
  | _ => false

/-- Parts that are looked up one after the other. -/
def names (p : Path) : List String := p.parts.filter (· ≠ "")

/-- Paths of a first part and of parts beneath it, which are given innermost first. Each is followed by
those around it; none ends in an idle part, and the root is left out. -/
def outwardFrom (first : String) : List String → List Path
  | [] => if first = "" then [] else [⟨[first]⟩]
  | part :: up =>
    if isIdle part then outwardFrom first up
    else ⟨first :: (part :: up).reverse⟩ :: outwardFrom first up

/-- The path as it is and those around it, nearest first. The place where paths start is left out. -/
def outward (p : Path) : List Path :=
  match p.parts with
  | [] => []
  | first :: rest =>
    match outwardFrom first rest.reverse with
    | [] => []
    | _ :: around => p :: around

end Path

end DirectCall
