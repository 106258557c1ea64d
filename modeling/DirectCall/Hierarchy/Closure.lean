import DirectCall.Hierarchy.Header
import Std.Data.HashMap

/-!
# Supertypes

The closure of a class holds its superclasses, nearest first, and every interface reached from it or
from one of them. It is complete if each type on the way is known.
-/

namespace DirectCall

/-- Known classes by name. -/
abbrev ClassTable := Std.HashMap String ClassHeader

structure Closure where
  superclasses : List String
  /-- By increasing name. -/
  interfaces : List String
  complete : Bool
  deriving DecidableEq, Repr

namespace Closure

def contains (c : Closure) (name : String) : Bool :=
  c.superclasses.contains name || c.interfaces.contains name

end Closure

namespace ClassTable

/-- The superclasses of `name`, up to a missing one or before one that was seen, and whether no
class was missing. A step leads to a class not seen before, so the number of classes is enough. -/
def superChain (table : ClassTable) : Nat → List String → String → List String × Bool
  | 0, _, _ => ([], true)
  | steps + 1, seen, name =>
    match table[name]? with
    | none => ([], false)
    | some header =>
      match header.superclass? with
      | none => ([], true)
      | some above =>
        if seen.contains above then ([], true)
        else
          let (chain, complete) := table.superChain steps (above :: seen) above
          (above :: chain, complete)

/-- Superclasses of a class, and whether all are known. -/
def superclasses (table : ClassTable) (start : String) : List String × Bool :=
  table.superChain (table.size + 1) [start] start

/-- Interfaces that are named by a type and not `found` yet. -/
def freshInterfaces (found : List String) : List String → List String
  | [] => []
  | name :: rest =>
    if found.contains name then freshInterfaces found rest
    else name :: freshInterfaces (name :: found) rest

/-- Adds the interfaces reached from the pending types. Every interface becomes pending once. -/
def gather (table : ClassTable) : Nat → List String → List String × Bool → List String × Bool
  | 0, _, result => result
  | _ + 1, [], result => result
  | steps + 1, name :: pending, (found, complete) =>
    match table[name]? with
    | none => table.gather steps pending (found, false)
    | some header =>
      let fresh := freshInterfaces found header.interfaces
      table.gather steps (pending ++ fresh) (found ++ fresh, complete)

/-- Number of interface names in all headers. -/
def interfaceCount (table : ClassTable) : Nat :=
  table.fold (fun n _ header => n + header.interfaces.length) 0

/-- The closure of a class, given the number of interface names in the table. -/
def closureWith (table : ClassTable) (interfaceCount : Nat) (start : String) : Closure :=
  let (superclasses, known) := table.superclasses start
  let pending := start :: superclasses
  let (interfaces, complete) := table.gather (pending.length + interfaceCount) pending ([], known)
  ⟨superclasses, interfaces.mergeSort fun a b => decide (a ≤ b), complete⟩

def closure (table : ClassTable) (start : String) : Closure :=
  table.closureWith table.interfaceCount start

end ClassTable

end DirectCall
