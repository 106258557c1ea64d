import DirectCall.Body
import DirectCall.Fault

/-!
# Control flow

A flow is a body seen by position: the instructions in order, where the nodes stand, and the ranges
that handlers cover. Successors are those of normal completion; a real instruction may also pass on
to the handlers that cover it.
-/

namespace DirectCall

/-- A handler and what it catches. -/
structure HandlerEdge where
  handler : Nat
  catchType : Option String
  deriving DecidableEq, Repr

/-- The positions from `start` up to `stop` with their handler. -/
structure Coverage where
  start : Nat
  stop : Nat
  edge : HandlerEdge
  deriving DecidableEq, Repr

structure Flow where
  list : InsnList
  positions : Positions
  coverages : List Coverage
  deriving Inhabited

namespace Positions

/-- The position of a node that must have one. -/
def find (positions : Positions) (id : NodeId) : Except Fault Nat :=
  match positions.find? id with
  | some position => .ok position
  | none => .error .strangeLabel

end Positions

namespace Flow

def coverage (positions : Positions) (r : Region) : Except Fault Coverage := do
  let start ← positions.find r.start
  let stop ← positions.find r.stop
  return ⟨start, stop, ← positions.find r.handler, r.catchType⟩

def ofBody (body : Body) : Except Fault Flow := do
  let positions := body.insns.positions
  return ⟨body.insns, positions, ← body.regions.mapM (coverage positions)⟩

/-- Number of positions. -/
def size (f : Flow) : Nat := f.list.size

def idAt (f : Flow) (position : Nat) : NodeId := f.list.idAt position

def insnAt (f : Flow) (position : Nat) : Insn := f.list.insnAt position

/-- Handlers that cover a position, in table order. -/
def handlersAt (f : Flow) (position : Nat) : List HandlerEdge :=
  (f.coverages.filter fun c => c.start ≤ position && position < c.stop).map (·.edge)

/-- Positions of the targets of an instruction. -/
def targetsAt (f : Flow) (position : Nat) : Except Fault (List Nat) :=
  (f.insnAt position).targets.mapM f.positions.find

/-- Positions that control may pass on to, exceptions apart. -/
def successors (f : Flow) (position : Nat) : Except Fault (List Nat) := do
  let targets ← f.targetsAt position
  if (f.insnAt position).endsFlow then return targets
  else if position + 1 < f.size then return targets ++ [position + 1]
  else throw .fallsOffEnd

end Flow

end DirectCall
