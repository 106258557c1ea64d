import DirectCall.Archive.Zip

/-!
# File trees

A tree of directories and files: what stands beneath a node by the names that lead there, and all files
of a tree in the order of their names.
-/

namespace DirectCall

/-- What a file holds. -/
inductive FileContent where
  | data (bytes : List UInt8)
  /-- An archive by its entries in order; the name of a directory entry ends in a slash. -/
  | archive (entries : List (String × List UInt8))
  deriving DecidableEq, Repr

/-- What is in the file for a reader that knows no archives. -/
def FileContent.bytes : FileContent → List UInt8
  | data bytes => bytes
  | archive entries => Archive.encode entries

inductive FileNode where
  | file (content : FileContent)
  | directory (children : List (String × FileNode))
  deriving Repr

/-- Gives a name to a value in place of what had the name. -/
def setNamed (name : String) (value : α) : List (String × α) → List (String × α)
  | [] => [(name, value)]
  | (other, old) :: rest =>
    if other = name then (name, value) :: rest else (other, old) :: setNamed name value rest

namespace FileNode

def empty : FileNode := .directory []

instance : Inhabited FileNode := ⟨empty⟩

/-- Children of a directory; a file has none. -/
def children : FileNode → List (String × FileNode)
  | .file _ => []
  | .directory children => children

def child? (node : FileNode) (name : String) : Option FileNode := node.children.lookup name

/-- What stands beneath a node, by the names that lead to it. -/
def at? (node : FileNode) : List String → Option FileNode
  | [] => some node
  | name :: names => (node.child? name).bind (·.at? names)

/-- Puts a node beneath another one; directories that are not there yet are made. -/
def put (node : FileNode) (names : List String) (new : FileNode) : FileNode :=
  match names with
  | [] => new
  | name :: names =>
    .directory (setNamed name (put ((node.child? name).getD empty) names new) node.children)

mutual

/-- Files beneath a node with the names that lead to them; names are in order at each level. -/
def files : FileNode → List (List String × FileContent)
  | .file content => [([], content)]
  | .directory children =>
    ((filesByName children).mergeSort fun a b => a.1 ≤ b.1).flatMap fun (name, below) =>
      below.map fun (names, content) => (name :: names, content)
termination_by structural node => node

/-- Files beneath each child. -/
def filesByName : List (String × FileNode) → List (String × List (List String × FileContent))
  | [] => []
  | (name, node) :: rest => (name, node.files) :: filesByName rest
termination_by structural nodes => nodes

end

end FileNode

end DirectCall
